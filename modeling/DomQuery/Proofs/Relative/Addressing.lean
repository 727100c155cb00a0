import DomQuery.Proofs.Relative.Navigation

/-!
# Documents in which paths are unique

In a document with a single root element, unique `id`s, names that need no escape and a tag name
of the root element that is its own, the path of an element is matched by that element alone
(`Addressable.matchesComplex_pathSelector_iff`): such a path has no echoes.
-/

namespace DomQuery.Dom

/-- What a document has to be like for every element in it to have a path of its own. -/
structure Addressable (dom : Dom) (document : Handle) : Prop where
  isDocument : dom.isDocument document = true
  /-- There is a single root element. -/
  exists_top : ∃ top, dom.elementChildren document = [top]
  /-- Between an element and the document there are only elements. -/
  isElement_of_ancestor : ∀ node ∈ dom.descendants document, dom.isElement node = true →
    ∀ other ∈ dom.ancestors node, other ≠ document → dom.isElement other = true
  /-- No other element has the tag name of the root element. -/
  tag_unique : ∀ top ∈ dom.elementChildren document, ∀ node ∈ dom.descendants document,
    dom.tagName? node = dom.tagName? top → node = top
  tag_plain : ∀ node ∈ dom.descendants document, ∀ name, dom.tagName? node = some name →
    name ≠ "" ∧ (∀ c ∈ name.toList, Text.isBlank c = false) ∧ Identifier.escape name = name
  id_unique : ∀ node ∈ dom.descendants document, ∀ other ∈ dom.descendants document, ∀ id,
    id ≠ "" → dom.attributeValue? node "id" = some id →
      dom.attributeValue? other "id" = some id → node = other
  id_plain : ∀ node ∈ dom.descendants document, ∀ id, dom.attributeValue? node "id" = some id →
    ∀ c ∈ id.toList, Text.isBlank c = false ∧ c ≠ '\x00'
  small : (dom.descendants document).length < 2147483648

namespace Addressable

variable {dom : Dom} {document node parent other : Handle}

theorem navigable (h : dom.Addressable document) : dom.Navigable document where
  isDocument := h.isDocument
  tag_written := by
    intro node hnode name hname
    obtain ⟨hne, -, hescape⟩ := h.tag_plain node hnode name hname
    exact ⟨hne, hescape⟩
  id_unique := h.id_unique
  null_not_mem_id := fun node hnode id _ hid hmem => (h.id_plain node hnode id hid _ hmem).2 rfl
  small := h.small

theorem rooted (h : dom.Addressable document) (hdom : dom.Reachable)
    (hnode : node ∈ dom.descendants document) (helement : dom.isElement node = true) :
    dom.Rooted document node :=
  Rooted.of_ancestors hdom hnode helement (h.isElement_of_ancestor node hnode helement)

theorem ne_document (h : dom.Addressable document) (helement : dom.isElement node = true) :
    node ≠ document :=
  h.navigable.ne_document helement

/-- The parent of an element is the document or an element below it. -/
theorem parent_cases (h : dom.Addressable document) (hdom : dom.Reachable)
    (hnode : node ∈ dom.descendants document) (helement : dom.isElement node = true)
    (hparent : dom.parent? node = some parent) :
    parent = document ∨ (parent ∈ dom.descendants document ∧ dom.isElement parent = true) := by
  cases h.rooted hdom hnode helement with
  | top _ hparent' => exact Or.inl (Option.some.inj (hparent.symm.trans hparent'))
  | @child _ parent' _ hparent' hrest =>
      obtain rfl : parent = parent' := Option.some.inj (hparent.symm.trans hparent')
      exact Or.inr ⟨hrest.mem_descendants hdom, hrest.isElement⟩

theorem blankFree (h : dom.Addressable document) (hnode : node ∈ dom.descendants document) :
    dom.BlankFree node :=
  fun name hname => (h.tag_plain node hnode name hname).2.1

/-! ### Paths -/

/-- **A path leads to one element.**  In the document, the selector of the path of an element is
matched by that element alone. -/
theorem matchesComplex_pathSelector_iff (h : dom.Addressable document) (hdom : dom.Reachable)
    (halone : dom.parent? document = none) (scope : Option Handle)
    (hnode : node ∈ dom.descendants document) (helement : dom.isElement node = true)
    (hother : other ∈ dom.descendants document) :
    dom.matchesComplex scope (dom.pathSelector (node :: dom.ancestors node)) other = true ↔
      other = node := by
  have hrooted := h.rooted hdom hnode helement
  rw [h.navigable.matchesComplex_path_iff hdom halone scope hrooted hother]
  constructor
  · exact h.navigable.eq_of_echo hdom halone hrooted (fun _ => h.tag_unique) hother
  · rintro rfl
    exact h.navigable.echo_self hrooted

end Addressable

/-- The document of the listing is one in which every element has a path of its own. -/
theorem addressable_listing : listing.Addressable ⟨0, 0⟩ where
  isDocument := rfl
  exists_top := ⟨⟨1, 0⟩, rfl⟩
  isElement_of_ancestor := by decide +kernel
  tag_unique := by decide +kernel
  tag_plain := by
    have hnames : ∀ node ∈ listing.descendants ⟨0, 0⟩, ∀ name ∈ listing.tagName? node,
        name ≠ "" ∧ (name.toList.all fun c => !Text.isBlank c) = true ∧
          Identifier.escape name = name := by decide +kernel
    simp only [List.all_eq_true, Bool.not_eq_true'] at hnames
    exact hnames
  id_unique := by
    have hids : ∀ node ∈ listing.descendants ⟨0, 0⟩, ∀ other ∈ listing.descendants ⟨0, 0⟩,
        ∀ id ∈ listing.attributeValue? node "id", listing.attributeValue? other "id" = some id →
          node = other := by decide +kernel
    exact fun node hnode other hother id _ => hids node hnode other hother id
  id_plain := by
    have hids : ∀ node ∈ listing.descendants ⟨0, 0⟩, ∀ id ∈ listing.attributeValue? node "id",
        (id.toList.all fun c => !Text.isBlank c && c != '\x00') = true := by decide +kernel
    simp only [List.all_eq_true, Bool.and_eq_true, Bool.not_eq_true', bne_iff_ne] at hids
    exact hids
  small := by decide +kernel

end DomQuery.Dom

import DomQuery.Proofs.Dom.Elements
import DomQuery.Proofs.Dom.Labels
import DomQuery.Proofs.Relative.Path

/-!
# Paths that are selectors

The path of an element is a selector if the tag names in it are identifiers
(`Dom.ofText_path`), whatever stands above the element and whatever the `id`s are.  It has a part
for each step, and its subject calls the element by its `id` or by its tag name.

Tag names are written as they are, so the condition is needed: the path of an element whose tag
name holds a colon is no selector (`Dom.ofText_path_prefixed`).
-/

namespace DomQuery.Dom

variable {dom : Dom} {kids : Handle → List Handle} {node parent : Handle}

/-- The compound calls the element: by `:scope` where it has no parent, and otherwise by its `id`,
as it is read back, or by its tag name. -/
inductive Calls (dom : Dom) (node : Handle) : List SimpleSelector → Prop where
  | scope : dom.parent? node = none → Calls dom node [.pseudoClass .scope]
  | id {parent : Handle} {id : String} : dom.parent? node = some parent →
      dom.pathId? node = some id → Calls dom node [.id (Identifier.readBackText id)]
  | tag {parent : Handle} {name : String} {more : List SimpleSelector} :
      dom.parent? node = some parent → dom.pathId? node = none → dom.tagName? node = some name →
        Calls dom node (.tag name :: more)

/-! ### Positions -/

/-- No position is larger than the number of live nodes, the position of a lone node apart. -/
theorem Forest.elementPosition_le (h : Forest dom kids) (node : Handle) :
    (dom.elementPosition? node).getD 1 ≤ max 1 dom.nodes.toList.length := by
  cases helement : dom.isElement node with
  | false => simp [elementPosition?, elementIndex?, helement]
  | true =>
      cases hparent : dom.parent? node with
      | none =>
          simp [elementPosition?, elementIndex?, helement, h.precedingElements_of_alone hparent]
      | some parent =>
          obtain ⟨before, after, hsplit⟩ := h.exists_elementChildren_split hparent helement
          have hlength := h.elementChildren_length_le_toList parent
          rw [hsplit, List.length_append, List.length_cons] at hlength
          rw [elementPosition?, h.elementIndex?_eq hsplit, Option.map_some, Option.getD_some]
          omega

/-- A tag name that needs no escape is an identifier, in lower case as all tag names are. -/
theorem Reachable.isKeyword_tagName (hdom : dom.Reachable) {name : String}
    (hname : dom.tagName? node = some name) (hwritten : name ≠ "" ∧ Identifier.escape name = name) :
    Identifier.IsKeyword name ∧ Text.lowercase name = name := by
  obtain ⟨element, helement, rfl⟩ := Option.map_eq_some_iff.mp hname
  exact ⟨Identifier.isKeyword_of_escape hwritten.1 hwritten.2, (hdom.labels helement).tagName_lower⟩

/-- A node can be called in a path if its tag name, where it has one, is an identifier. -/
theorem Reachable.legible (hdom : dom.Reachable) (hsmall : dom.nodes.toList.length < 2147483648)
    (hname : ∀ name, dom.tagName? node = some name → name ≠ "" ∧ Identifier.escape name = name) :
    dom.Legible node where
  isKeyword := fun name hsome => hdom.isKeyword_tagName hsome (hname name hsome)
  position_lt := (hdom.forest.elementPosition_le node).trans_lt (by omega)

/-! ### Paths -/

/-- The subject of the path of an element calls the element. -/
theorem calls_readPath (h : Forest dom kids) (helement : dom.isElement node = true) :
    ∃ simples combinator more,
      (dom.readPath (node :: dom.ancestors node)).parts = (simples, combinator) :: more ∧
        dom.Calls node simples := by
  cases hparent : dom.parent? node with
  | none =>
      rw [h.ancestors_of_alone hparent]
      exact ⟨_, _, _, rfl, .scope hparent⟩
  | some parent =>
      rw [h.ancestors_of_parent hparent, readPath]
      cases hid : dom.pathId? node with
      | some id => exact ⟨_, _, _, rfl, .id hparent hid⟩
      | none =>
          obtain ⟨name, hname⟩ := exists_tagName helement
          have hstep : ∃ more, dom.readStep node parent = .tag name :: more := by
            rw [readStep, typeSelector, hname]
            split
            · exact ⟨_, rfl⟩
            · exact ⟨_, rfl⟩
          obtain ⟨more, hstep⟩ := hstep
          rw [hstep]
          dsimp only
          split
          · exact ⟨_, _, _, rfl, .tag hparent hid hname⟩
          · exact ⟨_, _, _, rfl, .tag hparent hid hname⟩

/-- **The path of an element is a selector**, if the tag names that it writes are identifiers.  It
has a part for each step of the path, which the step is read as, and its subject calls the element. -/
theorem ofText_path (hdom : dom.Reachable) (hsmall : dom.nodes.toList.length < 2147483648)
    (helement : dom.isElement node = true)
    (hnames : ∀ called ∈ dom.calledNodes (node :: dom.ancestors node), ∀ name,
      dom.tagName? called = some name → name ≠ "" ∧ Identifier.escape name = name) :
    ∃ selector, SelectorList.ofText (dom.path node) = .ok [selector] ∧
      List.Forall₂ (fun step part => SelectorList.ofText step = .ok [.compound part.1])
        (dom.pathSteps (node :: dom.ancestors node)) selector.parts ∧
      ∃ simples combinator more, selector.parts = (simples, combinator) :: more ∧
        dom.Calls node simples := by
  have hsteps : dom.pathSteps (node :: dom.ancestors node) ≠ [] := by
    cases hparent : dom.parent? node with
    | none =>
        rw [hdom.forest.ancestors_of_alone hparent, pathSteps,
          dom.isDocument_eq_false_of_isElement helement, if_neg (by simp)]
        simp
    | some parent =>
        rw [hdom.forest.ancestors_of_parent hparent]
        exact pathSteps_ne_nil _ _ _
  have hcalled : ∀ called ∈ dom.calledNodes (node :: dom.ancestors node), dom.Legible called :=
    fun called hmem => hdom.legible hsmall (hnames called hmem)
  have hread := (spelled_readPath hsteps hcalled).ofText
  rw [← toList_path, String.ofList_toList] at hread
  exact ⟨_, hread, forall₂_readPath hsteps hcalled, calls_readPath hdom.forest helement⟩

/-- The second item of the listing has a path of two steps. -/
theorem ofText_path_listing :
    ∃ selector, SelectorList.ofText "ul > li:nth-child(2)" = .ok [selector] ∧
      selector.parts.length = 2 ∧ ∃ simples combinator more,
        selector.parts = (simples, combinator) :: more ∧ listing.Calls ⟨3, 0⟩ simples := by
  have hnames : ∀ called ∈ listing.calledNodes (⟨3, 0⟩ :: listing.ancestors ⟨3, 0⟩),
      ∀ name ∈ listing.tagName? called, name ≠ "" ∧ Identifier.escape name = name := by
    decide +kernel
  have hpath : listing.path ⟨3, 0⟩ = "ul > li:nth-child(2)" := by decide +kernel
  have hlength : (listing.pathSteps (⟨3, 0⟩ :: listing.ancestors ⟨3, 0⟩)).length = 2 := by
    decide +kernel
  obtain ⟨selector, hread, hparts, hcalls⟩ :=
    ofText_path reachable_listing (by decide +kernel) rfl hnames
  rw [hpath] at hread
  exact ⟨selector, hread, hparts.length_eq.symm.trans hlength, hcalls⟩

/-! ### A tag name that is no identifier -/

/-- The edits that build a document whose root element has a colon in its tag name. -/
def prefixedEdits : List Edit :=
  [.createDocument, .createElement "o:p" [], .appendChild ⟨0, 0⟩ ⟨1, 0⟩]

def prefixed : Dom :=
  (Dom.empty.run? prefixedEdits).getD Dom.empty

theorem reachable_prefixed : prefixed.Reachable :=
  Reachable.empty.run? (show Dom.empty.run? prefixedEdits = some prefixed from rfl)

/-- What is behind the colon is read as a pseudo-class. -/
theorem ofText_path_prefixed :
    prefixed.Reachable ∧ prefixed.nodes.toList.length = 2 ∧ prefixed.isElement ⟨1, 0⟩ = true ∧
      prefixed.isDocument (prefixed.root ⟨1, 0⟩) = true ∧
      SelectorList.ofText (prefixed.path ⟨1, 0⟩) = .error (.unknownPseudoClass "p") := by
  refine ⟨reachable_prefixed, by decide +kernel, rfl, by decide +kernel, ?_⟩
  have hpath : prefixed.path ⟨1, 0⟩ = "o:p" := by decide +kernel
  have htokens : Token.ofText "o:p" = .ok [.ident "o", .colon, .ident "p"] := by decide +kernel
  rw [hpath, SelectorList.ofText, htokens]
  rfl

end DomQuery.Dom

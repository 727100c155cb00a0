import DomQuery.Proofs.Dom.Elements
import DomQuery.Proofs.Dom.Linked
import DomQuery.Proofs.Matching.Query
import DomQuery.Proofs.Selector.Grammar

/-!
# Chains of compounds

A complex selector read as a statement about the tree.  Each combinator is a relation between
elements (`Dom.Related`), and an element matches a chain of compounds if it is the first of a
line of elements, one for each compound from the subject to the left, that match their compounds
and are related as the combinators say (`Dom.Line`).

The matcher tries candidates from the subject to the left.  That the candidates of a combinator
are all elements related by it (`Forest.mem_candidates`) is what makes the search complete: a
candidate that leads nowhere is given up, and none that belongs to a line is left out.
-/

namespace DomQuery

namespace Dom

/-- The combinator relates the element, on its right, to another one, on its left. -/
def Related (dom : Dom) : Combinator → Handle → Handle → Prop
  | .descendant, node, other => Relation.TransGen (Leads dom.parentElement?) node other
  | .child, node, other => dom.parentElement? node = some other
  | .nextSibling, node, other =>
      ∃ parent before after, dom.parent? node = some parent ∧ dom.parent? other = some parent ∧
        dom.elementChildren parent = before ++ other :: node :: after
  | .subsequentSibling, node, other =>
      ∃ parent before between after,
        dom.parent? node = some parent ∧ dom.parent? other = some parent ∧
        dom.elementChildren parent = before ++ other :: (between ++ node :: after)

/-- A line of nodes, one for each part of a complex selector: each of them matches the compound
of its part, and the combinator of its part relates it to the next one. -/
structure Line (dom : Dom) (scope : Option Handle)
    (parts : List (List SimpleSelector × Option Combinator)) (nodes : List Handle) : Prop where
  length_eq : nodes.length = parts.length
  compound : ∀ {i : ℕ} {simples combinator node}, parts[i]? = some (simples, combinator) →
    nodes[i]? = some node → dom.matchesCompound scope simples node = true
  related : ∀ {i : ℕ} {simples combinator node other},
    parts[i]? = some (simples, some combinator) → nodes[i]? = some node →
    nodes[i + 1]? = some other → dom.Related combinator node other

/-! ### Candidates -/

namespace Forest

variable {dom : Dom} {kids : Handle → List Handle} {node other : Handle}

theorem mem_previousElement? (h : Forest dom kids) (helement : dom.isElement node = true) :
    other ∈ dom.previousElement? node ↔ dom.Related .nextSibling node other := by
  rw [Option.mem_def]
  constructor
  · intro hprevious
    cases hparent : dom.parent? node with
    | none =>
        rw [previousElement?, (h.siblings_eq_nil hparent).1] at hprevious
        exact absurd hprevious (by simp)
    | some parent =>
        obtain ⟨before, after, hsplit⟩ := h.exists_elementChildren_split hparent helement
        rw [h.previousElement?_eq hsplit] at hprevious
        obtain ⟨rest, rfl⟩ := List.getLast?_eq_some_iff.mp hprevious
        exact ⟨parent, rest, after, hparent, h.parent_of_mem_elementChildren (by simp [hsplit]),
          by simp [hsplit]⟩
  · rintro ⟨parent, before, after, -, -, hsplit⟩
    rw [h.previousElement?_eq (show dom.elementChildren parent =
      (before ++ [other]) ++ node :: after by simp [hsplit]), List.getLast?_concat]

theorem mem_precedingElements (h : Forest dom kids) (helement : dom.isElement node = true) :
    other ∈ dom.precedingElements node ↔ dom.Related .subsequentSibling node other := by
  constructor
  · intro hmem
    cases hparent : dom.parent? node with
    | none =>
        rw [h.precedingElements_of_alone hparent] at hmem
        exact absurd hmem (by simp)
    | some parent =>
        obtain ⟨before, after, hsplit⟩ := h.exists_elementChildren_split hparent helement
        rw [h.precedingElements_eq hsplit, List.mem_reverse] at hmem
        obtain ⟨left, between, rfl⟩ := List.append_of_mem hmem
        exact ⟨parent, left, between, after, hparent,
          h.parent_of_mem_elementChildren (by simp [hsplit]), by simp [hsplit]⟩
  · rintro ⟨parent, before, between, after, -, -, hsplit⟩
    rw [h.precedingElements_eq (show dom.elementChildren parent =
      (before ++ other :: between) ++ node :: after by simp [hsplit])]
    simp

/-- The candidates of a combinator are the elements that it relates to the given one. -/
theorem mem_candidates (h : Forest dom kids) {combinator : Combinator}
    (helement : dom.isElement node = true) :
    other ∈ dom.candidates combinator node ↔ dom.Related combinator node other := by
  cases combinator with
  | descendant => exact h.mem_elementAncestors
  | child => simp [candidates, Related]
  | nextSibling =>
      rw [candidates, Option.mem_toList]
      exact h.mem_previousElement? helement
  | subsequentSibling => exact h.mem_precedingElements helement

/-- From below a node that is no element, parent elements stay below it. -/
theorem mem_descendants_of_parentElement? (h : Forest dom kids) {top parent : Handle}
    (htop : dom.isElement top = false) (hnode : node ∈ dom.descendants top)
    (hparent : dom.parentElement? node = some parent) : parent ∈ dom.descendants top := by
  obtain ⟨hparent, helement⟩ := Option.filter_eq_some_iff.mp hparent
  rcases h.parent_of_mem_descendants hnode hparent with rfl | hbelow
  · rw [htop] at helement
    exact absurd helement (by simp)
  · exact hbelow

/-- No combinator leads out of the nodes below a node that is no element. -/
theorem related_mem_descendants (h : Forest dom kids) {top : Handle} {combinator : Combinator}
    (htop : dom.isElement top = false) (hnode : node ∈ dom.descendants top)
    (hrelated : dom.Related combinator node other) : other ∈ dom.descendants top := by
  cases combinator with
  | descendant =>
      have htrail : Relation.TransGen (Leads dom.parentElement?) node other := hrelated
      induction htrail with
      | single hstep => exact h.mem_descendants_of_parentElement? htop hnode hstep
      | tail _ hstep ih => exact h.mem_descendants_of_parentElement? htop (ih ‹_›) hstep
  | child => exact h.mem_descendants_of_parentElement? htop hnode hrelated
  | nextSibling =>
      obtain ⟨parent, -, -, hparent, hother, -⟩ := hrelated
      exact h.mem_descendants_of_sibling hnode hparent hother
  | subsequentSibling =>
      obtain ⟨parent, -, -, -, hparent, hother, -⟩ := hrelated
      exact h.mem_descendants_of_sibling hnode hparent hother

end Forest

/-! ### Lines -/

namespace Line

variable {dom : Dom} {scope : Option Handle} {simples : List SimpleSelector}
  {parts : List (List SimpleSelector × Option Combinator)} {node other : Handle}
  {line : List Handle}

theorem single (hnode : dom.matchesCompound scope simples node = true) :
    dom.Line scope [(simples, none)] [node] where
  length_eq := rfl
  compound := by
    intro i simples' combinator node' hpart hnode'
    cases i with
    | zero =>
        cases hpart
        cases hnode'
        exact hnode
    | succ i => exact absurd hpart (by simp)
  related := by
    intro i simples' combinator node' other hpart
    cases i with
    | zero => exact absurd hpart (by simp)
    | succ i => exact absurd hpart (by simp)

theorem cons {combinator : Combinator} (h : dom.Line scope parts (other :: line))
    (hnode : dom.matchesCompound scope simples node = true)
    (hrelated : dom.Related combinator node other) :
    dom.Line scope ((simples, some combinator) :: parts) (node :: other :: line) where
  length_eq := by simp [h.length_eq]
  compound := by
    intro i simples' combinator' node' hpart hnode'
    cases i with
    | zero =>
        cases hpart
        cases hnode'
        exact hnode
    | succ i => exact h.compound hpart hnode'
  related := by
    intro i simples' combinator' node' other' hpart hnode' hother
    cases i with
    | zero =>
        cases hpart
        cases hnode'
        cases hother
        exact hrelated
    | succ i => exact h.related hpart hnode' hother

theorem head {part : List SimpleSelector × Option Combinator}
    (h : dom.Line scope (part :: parts) (node :: line)) :
    dom.matchesCompound scope part.1 node = true :=
  h.compound (show (part :: parts)[0]? = some (part.1, part.2) from rfl) (List.getElem?_cons_zero)

theorem tail {part : List SimpleSelector × Option Combinator}
    (h : dom.Line scope (part :: parts) (node :: line)) : dom.Line scope parts line where
  length_eq := by simpa using h.length_eq
  compound := by
    intro i simples' combinator' node' hpart hnode'
    exact h.compound (i := i + 1) hpart hnode'
  related := by
    intro i simples' combinator' node' other' hpart hnode' hother
    exact h.related (i := i + 1) hpart hnode' hother

end Line

/-- In a forest the matcher finds a line whenever there is one. -/
theorem Forest.matchesComplex_iff {dom : Dom} {kids : Handle → List Handle}
    (h : Forest dom kids) (scope : Option Handle) :
    ∀ (selector : ComplexSelector) (node : Handle), dom.matchesComplex scope selector node = true ↔
      ∃ line, dom.Line scope selector.parts (node :: line)
  | .compound simples, node => by
      rw [matchesComplex, ← matchesCompound]
      constructor
      · intro hnode
        exact ⟨[], Line.single hnode⟩
      · rintro ⟨line, hline⟩
        exact hline.head
  | .combined left combinator simples, node => by
      rw [matchesComplex, ← matchesCompound, Bool.and_eq_true, List.any_eq_true]
      constructor
      · rintro ⟨hnode, other, hother, hleft⟩
        obtain ⟨line, hline⟩ := (h.matchesComplex_iff scope left other).mp hleft
        have hrelated := (h.mem_candidates (isElement_of_matchesCompound hnode)).mp hother
        exact ⟨other :: line, hline.cons hnode hrelated⟩
      · rintro ⟨line, hline⟩
        have hnode := hline.head
        cases line with
        | nil =>
            have hlength := hline.tail.length_eq
            exact absurd (List.eq_nil_of_length_eq_zero hlength.symm) left.parts_ne_nil
        | cons other line =>
            have hrelated : dom.Related combinator node other := hline.related (i := 0) rfl rfl rfl
            exact ⟨hnode, other, (h.mem_candidates (isElement_of_matchesCompound hnode)).mpr hrelated,
              (h.matchesComplex_iff scope left other).mpr ⟨line, hline.tail⟩⟩

/-- **Matching is declarative.**  In every reachable state a node matches a complex selector if
and only if it is the first of a line of nodes that fits the parts of the selector. -/
theorem matchesComplex_iff_line {dom : Dom} (h : dom.Reachable) (scope : Option Handle)
    (selector : ComplexSelector) (node : Handle) :
    dom.matchesComplex scope selector node = true ↔
      ∃ line, line.head? = some node ∧ dom.Line scope selector.parts line := by
  rw [h.forest.matchesComplex_iff]
  constructor
  · rintro ⟨line, hline⟩
    exact ⟨node :: line, rfl, hline⟩
  · rintro ⟨line, hhead, hline⟩
    obtain ⟨rest, rfl⟩ := List.head?_eq_some_iff.mp hhead
    exact ⟨rest, hline⟩

/-- The second item of the listing stands in a line for `ul > li + li`. -/
theorem exists_line_listing : ∃ line, line.head? = some ⟨3, 0⟩ ∧
    listing.Line none (ComplexSelector.parts (.combined (.combined (.compound [.tag "ul"]) .child
      [.tag "li"]) .nextSibling [.tag "li"])) line :=
  (matchesComplex_iff_line reachable_listing none _ _).mp (by decide +kernel)

end Dom

end DomQuery

import DomQuery.Proofs.Matching.Chain
import DomQuery.Proofs.Matching.Scope

/-!
# `:scope` at a document

In a query at a document `:scope` stands for the root element, and where there is none it falls
back to what `:root` says.  The two pseudo-classes are decided in different ways: one compares a
node with the scope, the other looks whether the parent is a document.

They say the same of all nodes below a document that has at most one element child and no other
document below it.  No combinator leads out of these nodes (`Forest.related_mem_descendants`), so
at every depth of a selector `:root` can be put in the place of `:scope`
(`Dom.filter_matchesAny_scopeAsRoot`).
-/

namespace DomQuery

/-- `:root` in the place of `:scope`. -/
def PseudoClass.scopeAsRoot : PseudoClass → PseudoClass
  | .scope => .root
  | pseudo => pseudo

mutual

/-- The condition with `:root` in the place of every `:scope`, at any depth. -/
def SimpleSelector.scopeAsRoot : SimpleSelector → SimpleSelector
  | .pseudoClass pseudo => .pseudoClass pseudo.scopeAsRoot
  | .notAny selectors => .notAny (anyScopeAsRoot selectors)
  | .isAny selectors => .isAny (anyScopeAsRoot selectors)
  | .whereAny selectors => .whereAny (anyScopeAsRoot selectors)
  | .tag name => .tag name
  | .universal => .universal
  | .id value => .id value
  | .className value => .className value
  | .hasAttribute name test => .hasAttribute name test
  | .nthChild positions => .nthChild positions
  | .nthLastChild positions => .nthLastChild positions
  | .pseudoElement pseudo => .pseudoElement pseudo

def compoundScopeAsRoot : List SimpleSelector → List SimpleSelector
  | [] => []
  | simple :: rest => simple.scopeAsRoot :: compoundScopeAsRoot rest

def ComplexSelector.scopeAsRoot : ComplexSelector → ComplexSelector
  | .compound simples => .compound (compoundScopeAsRoot simples)
  | .combined left combinator simples =>
      .combined left.scopeAsRoot combinator (compoundScopeAsRoot simples)

def anyScopeAsRoot : List ComplexSelector → List ComplexSelector
  | [] => []
  | selector :: rest => selector.scopeAsRoot :: anyScopeAsRoot rest

end

theorem PseudoClass.scopeAsRoot_ne_scope (pseudo : PseudoClass) : pseudo.scopeAsRoot ≠ .scope := by
  cases pseudo <;> simp [scopeAsRoot]

theorem PseudoClass.scopeAsRoot_of_ne_scope {pseudo : PseudoClass} (h : pseudo ≠ .scope) :
    pseudo.scopeAsRoot = pseudo := by
  cases pseudo <;> first | rfl | exact absurd rfl h

mutual

/-- No `:scope` is left. -/
theorem usesScope_scopeAsRoot : ∀ simple : SimpleSelector, simple.scopeAsRoot.usesScope = false
  | .pseudoClass pseudo => by
      rw [SimpleSelector.scopeAsRoot, SimpleSelector.usesScope, beq_eq_false_iff_ne]
      exact pseudo.scopeAsRoot_ne_scope
  | .notAny selectors => anyUsesScope_scopeAsRoot selectors
  | .isAny selectors => anyUsesScope_scopeAsRoot selectors
  | .whereAny selectors => anyUsesScope_scopeAsRoot selectors
  | .tag _ => rfl
  | .universal => rfl
  | .id _ => rfl
  | .className _ => rfl
  | .hasAttribute _ _ => rfl
  | .nthChild _ => rfl
  | .nthLastChild _ => rfl
  | .pseudoElement _ => rfl

theorem compoundUsesScope_scopeAsRoot : ∀ simples : List SimpleSelector,
    compoundUsesScope (compoundScopeAsRoot simples) = false
  | [] => rfl
  | simple :: rest => by
      rw [compoundScopeAsRoot, compoundUsesScope, usesScope_scopeAsRoot simple,
        compoundUsesScope_scopeAsRoot rest, Bool.or_false]

theorem complexUsesScope_scopeAsRoot : ∀ selector : ComplexSelector,
    selector.scopeAsRoot.usesScope = false
  | .compound simples => compoundUsesScope_scopeAsRoot simples
  | .combined left combinator simples => by
      rw [ComplexSelector.scopeAsRoot, ComplexSelector.usesScope, complexUsesScope_scopeAsRoot left,
        compoundUsesScope_scopeAsRoot simples, Bool.or_false]

theorem anyUsesScope_scopeAsRoot : ∀ selectors : List ComplexSelector,
    anyUsesScope (anyScopeAsRoot selectors) = false
  | [] => rfl
  | selector :: rest => by
      rw [anyScopeAsRoot, anyUsesScope, complexUsesScope_scopeAsRoot selector,
        anyUsesScope_scopeAsRoot rest, Bool.or_false]

end

namespace Dom

/-- Among the nodes `:scope` says what `:root` says, and no combinator leads out of them. -/
structure ScopeIsRoot (dom : Dom) (scope : Option Handle) (nodes : List Handle) : Prop where
  inState_scope : ∀ {node : Handle} {element : Element}, node ∈ nodes →
    dom.element? node = some element → dom.inState scope node element .scope = dom.isRoot node
  mem_of_candidates : ∀ {node other : Handle} {combinator : Combinator}, node ∈ nodes →
    dom.isElement node = true → other ∈ dom.candidates combinator node → other ∈ nodes

namespace ScopeIsRoot

variable {dom : Dom} {scope : Option Handle} {nodes : List Handle}

mutual

/-- A condition says of the nodes what it says with `:root` in the place of `:scope`. -/
theorem satisfies_eq (h : dom.ScopeIsRoot scope nodes) : ∀ (simple : SimpleSelector)
    {node : Handle} {element : Element}, node ∈ nodes → dom.element? node = some element →
      dom.satisfies scope simple node element =
        dom.satisfies scope simple.scopeAsRoot node element
  | .pseudoClass pseudo, _, _, hnode, helement => by
      rw [SimpleSelector.scopeAsRoot, satisfies, satisfies]
      by_cases hscope : pseudo = .scope
      · subst hscope
        exact h.inState_scope hnode helement
      · rw [PseudoClass.scopeAsRoot_of_ne_scope hscope]
  | .notAny selectors, _, _, hnode, _ => by
      rw [SimpleSelector.scopeAsRoot, satisfies, satisfies, h.matchesAny_eq selectors hnode]
  | .isAny selectors, _, _, hnode, _ => by
      rw [SimpleSelector.scopeAsRoot, satisfies, satisfies, h.matchesAny_eq selectors hnode]
  | .whereAny selectors, _, _, hnode, _ => by
      rw [SimpleSelector.scopeAsRoot, satisfies, satisfies, h.matchesAny_eq selectors hnode]
  | .tag _, _, _, _, _ => rfl
  | .universal, _, _, _, _ => rfl
  | .id _, _, _, _, _ => rfl
  | .className _, _, _, _, _ => rfl
  | .hasAttribute _ _, _, _, _, _ => rfl
  | .nthChild _, _, _, _, _ => rfl
  | .nthLastChild _, _, _, _, _ => rfl
  | .pseudoElement _, _, _, _, _ => rfl

theorem satisfiesAll_eq (h : dom.ScopeIsRoot scope nodes) : ∀ (simples : List SimpleSelector)
    {node : Handle} {element : Element}, node ∈ nodes → dom.element? node = some element →
      dom.satisfiesAll scope simples node element =
        dom.satisfiesAll scope (compoundScopeAsRoot simples) node element
  | [], _, _, _, _ => rfl
  | simple :: rest, _, _, hnode, helement => by
      rw [compoundScopeAsRoot, satisfiesAll, satisfiesAll, h.satisfies_eq simple hnode helement,
        h.satisfiesAll_eq rest hnode helement]

theorem matchesComplex_eq (h : dom.ScopeIsRoot scope nodes) : ∀ (selector : ComplexSelector)
    {node : Handle}, node ∈ nodes → dom.matchesComplex scope selector node =
      dom.matchesComplex scope selector.scopeAsRoot node
  | .compound simples, node, hnode => by
      rw [ComplexSelector.scopeAsRoot, matchesComplex, matchesComplex]
      cases helement : dom.element? node with
      | none => rfl
      | some element => exact h.satisfiesAll_eq simples hnode helement
  | .combined left combinator simples, node, hnode => by
      rw [ComplexSelector.scopeAsRoot, matchesComplex, matchesComplex]
      cases helement : dom.element? node with
      | none => rfl
      | some element =>
          have hiselement : dom.isElement node = true := by
            rw [isElement, helement, Option.isSome_some]
          -- all candidates are among the nodes again
          have hleft : (dom.candidates combinator node).any (dom.matchesComplex scope left) =
              (dom.candidates combinator node).any (dom.matchesComplex scope left.scopeAsRoot) := by
            rw [Bool.eq_iff_iff, List.any_eq_true, List.any_eq_true]
            refine exists_congr fun other => and_congr_right fun hother => ?_
            rw [h.matchesComplex_eq left (h.mem_of_candidates hnode hiselement hother)]
          rw [Option.any_some, Option.any_some, h.satisfiesAll_eq simples hnode helement, hleft]

theorem matchesAny_eq (h : dom.ScopeIsRoot scope nodes) : ∀ (selectors : List ComplexSelector)
    {node : Handle}, node ∈ nodes → dom.matchesAny scope selectors node =
      dom.matchesAny scope (anyScopeAsRoot selectors) node
  | [], _, _ => rfl
  | selector :: rest, _, hnode => by
      rw [anyScopeAsRoot, matchesAny, matchesAny, h.matchesComplex_eq selector hnode,
        h.matchesAny_eq rest hnode]

end

end ScopeIsRoot

/-! ### Below a document -/

section Document

variable {dom : Dom} {kids : Handle → List Handle} {document : Handle}

/-- The root elements below the document are the children of the document. -/
theorem Forest.isRoot_iff (h : Forest dom kids) (hdocument : dom.isDocument document = true)
    (hsole : ∀ node ∈ dom.descendants document, dom.isDocument node = false) {node : Handle}
    (hnode : node ∈ dom.descendants document) :
    dom.isRoot node = true ↔ dom.parent? node = some document := by
  rw [isRoot, Option.any_eq_true]
  constructor
  · rintro ⟨parent, hparent, hparentDocument⟩
    rcases h.parent_of_mem_descendants hnode hparent with rfl | hbelow
    · exact hparent
    · rw [hsole parent hbelow] at hparentDocument
      exact absurd hparentDocument (by simp)
  · intro hparent
    exact ⟨document, hparent, hdocument⟩

/-- The root element is the only element below the document with the document as its parent. -/
theorem Forest.documentElement?_eq_some_iff (h : Forest dom kids)
    (hdocument : dom.isDocument document = true)
    (hone : (dom.elementChildren document).length ≤ 1) {node : Handle}
    (helement : dom.isElement node = true) :
    dom.documentElement? document = some node ↔ dom.parent? node = some document := by
  rw [documentElement?, if_pos hdocument]
  constructor
  · intro hhead
    exact h.parent_of_mem_elementChildren (List.mem_of_head? hhead)
  · intro hparent
    obtain ⟨before, after, hsplit⟩ := h.exists_elementChildren_split hparent helement
    rw [hsplit, List.length_append, List.length_cons] at hone
    rw [hsplit, List.eq_nil_of_length_eq_zero (show before.length = 0 by omega), List.nil_append,
      List.head?_cons]

/-- Below the document, the scope of a query at it is what `:root` finds. -/
theorem Forest.scopeIsRoot (h : Forest dom kids) (hdocument : dom.isDocument document = true)
    (hone : (dom.elementChildren document).length ≤ 1)
    (hsole : ∀ node ∈ dom.descendants document, dom.isDocument node = false) :
    dom.ScopeIsRoot (dom.documentElement? document) (dom.descendants document) where
  inState_scope := by
    intro node element hnode helement
    have hiselement : dom.isElement node = true := by rw [isElement, helement, Option.isSome_some]
    have hroot := h.documentElement?_eq_some_iff hdocument hone hiselement
    rw [← h.isRoot_iff hdocument hsole hnode] at hroot
    cases hscope : dom.documentElement? document with
    | none => rfl
    | some scope =>
        rw [hscope, Option.some.injEq] at hroot
        rw [inState, Bool.eq_iff_iff, beq_iff_eq, hroot]
  mem_of_candidates := by
    intro node other combinator hnode helement hother
    have htop := dom.isElement_eq_false_of_isDocument hdocument
    exact h.related_mem_descendants htop hnode ((h.mem_candidates helement).mp hother)

end Document

/-- **At a document `:scope` means `:root`.**  Where a document has at most one element child and no
other document below it, a query at it selects the same nodes in the same order when every `:scope`
is replaced by `:root`, and then the scope of the query does not matter any more. -/
theorem filter_matchesAny_scopeAsRoot {dom : Dom} (h : dom.Reachable) {document : Handle}
    (hdocument : dom.isDocument document = true)
    (hone : (dom.elementChildren document).length ≤ 1)
    (hsole : ∀ node ∈ dom.descendants document, dom.isDocument node = false)
    (selectors : SelectorList) :
    ∃ scope, dom.queryScope document = .ok scope ∧ ∀ other,
      (dom.descendants document).filter (dom.matchesAny scope selectors) =
        (dom.descendants document).filter (dom.matchesAny other (anyScopeAsRoot selectors)) := by
  refine ⟨_, queryScope_of_isDocument hdocument, fun other => ?_⟩
  refine List.filter_congr fun node hnode => ?_
  rw [(h.forest.scopeIsRoot hdocument hone hsole).matchesAny_eq selectors hnode]
  exact dom.matchesAny_of_not_usesScope _ other (anyUsesScope_scopeAsRoot selectors) node

/-- A selector that holds `:scope` on the left of a combinator and inside of a list in a list. -/
theorem filter_matchesAny_scopeAsRoot_listing :
    let selectors : SelectorList := [.combined (.compound [.pseudoClass .scope]) .child
      [.notAny [.compound [.isAny [.compound [.pseudoClass .scope]]]]]]
    let replaced : SelectorList := [.combined (.compound [.pseudoClass .root]) .child
      [.notAny [.compound [.isAny [.compound [.pseudoClass .root]]]]]]
    listing.isDocument ⟨0, 0⟩ = true ∧ (listing.elementChildren ⟨0, 0⟩).length ≤ 1 ∧
      (∀ node ∈ listing.descendants ⟨0, 0⟩, listing.isDocument node = false) ∧
      (∃ scope, listing.queryScope ⟨0, 0⟩ = .ok scope ∧ ∀ other,
        (listing.descendants ⟨0, 0⟩).filter (listing.matchesAny scope selectors) =
          (listing.descendants ⟨0, 0⟩).filter (listing.matchesAny other replaced)) ∧
      (listing.descendants ⟨0, 0⟩).filter (listing.matchesAny none replaced) =
        [⟨2, 0⟩, ⟨3, 0⟩] :=
  ⟨by decide, by decide, by decide,
    filter_matchesAny_scopeAsRoot reachable_listing (by decide) (by decide) (by decide) _,
    by decide +kernel⟩

end Dom

end DomQuery

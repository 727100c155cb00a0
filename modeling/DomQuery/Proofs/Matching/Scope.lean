import DomQuery.Dom.Matching

/-!
# What the scope is used for

Only `:scope` looks at the scope of a query.  A selector that does not hold it, at any depth, is
matched by the same nodes whatever the scope is (`Dom.matchesAny_of_not_usesScope`).
-/

namespace DomQuery

mutual

/-- Whether `:scope` occurs in the simple selector, at any depth. -/
def SimpleSelector.usesScope : SimpleSelector → Bool
  | .pseudoClass pseudo => pseudo == .scope
  | .notAny selectors => anyUsesScope selectors
  | .isAny selectors => anyUsesScope selectors
  | .whereAny selectors => anyUsesScope selectors
  | _ => false

def compoundUsesScope : List SimpleSelector → Bool
  | [] => false
  | simple :: rest => simple.usesScope || compoundUsesScope rest

def ComplexSelector.usesScope : ComplexSelector → Bool
  | .compound simples => compoundUsesScope simples
  | .combined left _ simples => left.usesScope || compoundUsesScope simples

def anyUsesScope : List ComplexSelector → Bool
  | [] => false
  | selector :: rest => selector.usesScope || anyUsesScope rest

end

namespace Dom

variable (dom : Dom) (first second : Option Handle)

theorem inState_of_ne_scope {pseudo : PseudoClass} (h : pseudo ≠ .scope) (node : Handle)
    (element : Element) :
    dom.inState first node element pseudo = dom.inState second node element pseudo := by
  cases pseudo with
  | scope => exact absurd rfl h
  | _ => rfl

mutual

/-- A condition without `:scope` does not depend on the scope. -/
theorem satisfies_of_not_usesScope : ∀ {simple : SimpleSelector}, simple.usesScope = false →
    ∀ (node : Handle) (element : Element),
      dom.satisfies first simple node element = dom.satisfies second simple node element
  | .tag _, _, _, _ => rfl
  | .universal, _, _, _ => rfl
  | .id _, _, _, _ => rfl
  | .className _, _, _, _ => rfl
  | .hasAttribute _ none, _, _, _ => rfl
  | .hasAttribute _ (some (_, _)), _, _, _ => rfl
  | .pseudoClass pseudo, h, node, element => by
      rw [SimpleSelector.usesScope, beq_eq_false_iff_ne] at h
      rw [satisfies, satisfies, dom.inState_of_ne_scope first second h]
  | .nthChild _, _, _, _ => rfl
  | .nthLastChild _, _, _, _ => rfl
  | .notAny selectors, h, node, element => by
      rw [satisfies, satisfies, matchesAny_of_not_usesScope h]
  | .isAny selectors, h, node, element => by
      rw [satisfies, satisfies, matchesAny_of_not_usesScope h]
  | .whereAny selectors, h, node, element => by
      rw [satisfies, satisfies, matchesAny_of_not_usesScope h]
  | .pseudoElement _, _, _, _ => rfl

theorem satisfiesAll_of_not_usesScope : ∀ {simples : List SimpleSelector},
    compoundUsesScope simples = false → ∀ (node : Handle) (element : Element),
      dom.satisfiesAll first simples node element = dom.satisfiesAll second simples node element
  | [], _, _, _ => rfl
  | simple :: rest, h, node, element => by
      rw [compoundUsesScope, Bool.or_eq_false_iff] at h
      rw [satisfiesAll, satisfiesAll, satisfies_of_not_usesScope h.1,
        satisfiesAll_of_not_usesScope h.2]

theorem matchesComplex_of_not_usesScope : ∀ {selector : ComplexSelector},
    selector.usesScope = false → ∀ node : Handle,
      dom.matchesComplex first selector node = dom.matchesComplex second selector node
  | .compound simples, h, node => by
      rw [matchesComplex, matchesComplex, funext (satisfiesAll_of_not_usesScope h node)]
  | .combined left combinator simples, h, node => by
      rw [ComplexSelector.usesScope, Bool.or_eq_false_iff] at h
      rw [matchesComplex, matchesComplex, funext (satisfiesAll_of_not_usesScope h.2 node),
        funext (matchesComplex_of_not_usesScope h.1)]

/-- A selector without `:scope` is matched by the same nodes under every scope. -/
theorem matchesAny_of_not_usesScope : ∀ {selectors : List ComplexSelector},
    anyUsesScope selectors = false → ∀ node : Handle,
      dom.matchesAny first selectors node = dom.matchesAny second selectors node
  | [], _, _ => rfl
  | selector :: rest, h, node => by
      rw [anyUsesScope, Bool.or_eq_false_iff] at h
      rw [matchesAny, matchesAny, matchesComplex_of_not_usesScope h.1,
        matchesAny_of_not_usesScope h.2]

end

/-- A compound without `:scope` is matched by the same nodes under every scope. -/
theorem matchesCompound_of_not_usesScope {simples : List SimpleSelector}
    (h : compoundUsesScope simples = false) (node : Handle) :
    dom.matchesCompound first simples node = dom.matchesCompound second simples node := by
  rw [matchesCompound, matchesCompound,
    funext (dom.satisfiesAll_of_not_usesScope first second h node)]

end Dom

end DomQuery

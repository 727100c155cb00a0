import DomQuery.Proofs.Selector.Parsing
import DomQuery.Proofs.Text.Case

/-!
# The words of the grammar

The derivations of the grammar look names and signs up where a selector may hold one of
several.  `Vocabulary` lists what they can find: a name stands for a pseudo-class or a
pseudo-element if it is the keyword up to the case of the letters `A` to `Z`, and no name stands
for one of each kind.  Together with the derivations it is the whole grammar, without reference
to a reader, and the reader accepts just that (`SelectorList.ofTokens_iff_derives`).
-/

namespace DomQuery.Grammar

/-- What the derivations find under a sign or a name. -/
structure Vocabulary : Prop where
  combinator : ∀ (c : Char) (combinator : Combinator),
    Combinator.ofSign? c = some combinator ↔ (c, combinator) ∈
      [('>', .child), ('+', .nextSibling), ('~', .subsequentSibling)]
  comparison : ∀ (op : AttributeOp) (tokens : List Token),
    tokens = comparison op ↔ (op, tokens) ∈
      [(.equals, [.delim '=']), (.includes, [.delim '~', .delim '=']),
        (.dashMatch, [.delim '|', .delim '=']), (.startsWith, [.delim '^', .delim '=']),
        (.endsWith, [.delim '$', .delim '=']), (.contains, [.delim '*', .delim '='])]
  /-- The tokens that may stand in the argument of a positional pseudo-class. -/
  nthPart : ∀ token : Token, Parser.isNthPart token = true ↔
    (∃ name, token = .ident name) ∨ (∃ text, token = .number text) ∨
      (∃ value unit, token = .dimension value unit) ∨ token = .whitespace ∨
      ∃ c, token = .delim c ∧ (c = '+' ∨ c = '-')
  positional : ∀ (name : String) (make : AnPlusB → SimpleSelector),
    Parser.positional? (Text.lowercase name) = some make ↔
      Text.sameFolded name "nth-child" = true ∧ make = .nthChild ∨
      Text.sameFolded name "nth-last-child" = true ∧ make = .nthLastChild
  logical : ∀ (name : String) (make : SelectorList → SimpleSelector),
    Parser.logical? (Text.lowercase name) = some make ↔
      Text.sameFolded name "not" = true ∧ make = .notAny ∨
      Text.sameFolded name "is" = true ∧ make = .isAny ∨
      Text.sameFolded name "matches" = true ∧ make = .isAny ∨
      Text.sameFolded name "where" = true ∧ make = .whereAny
  pseudoElement : ∀ (name : String) (pseudo : PseudoElement),
    PseudoElement.ofName? name = some pseudo ↔ Text.sameFolded name pseudo.name = true
  legacyElement : ∀ (name : String) (pseudo : PseudoElement),
    PseudoElement.ofName? (Text.lowercase name) = some pseudo ↔
      Text.sameFolded name pseudo.name = true
  pseudoClass : ∀ (name : String) (pseudo : PseudoClass),
    PseudoClass.ofName? (Text.lowercase name) = some pseudo ↔
      Text.sameFolded name pseudo.name = true
  /-- No keyword of a pseudo-class is one of a pseudo-element. -/
  disjoint : ∀ (pseudo : PseudoClass), PseudoElement.ofName? pseudo.name = none

/-! ### Keywords -/

theorem lowercase_class (pseudo : PseudoClass) : Text.lowercase pseudo.name = pseudo.name := by
  cases pseudo <;> decide

theorem lowercase_element (pseudo : PseudoElement) :
    Text.lowercase pseudo.name = pseudo.name := by
  cases pseudo <;> decide

/-- A name is a keyword up to case if it is the keyword in lower case. -/
theorem lowercase_eq_iff {name keyword : String} (hkeyword : Text.lowercase keyword = keyword) :
    Text.lowercase name = keyword ↔ Text.sameFolded name keyword = true := by
  rw [Text.sameFolded, hkeyword, beq_iff_eq]

theorem classOfName?_iff {text : String} {pseudo : PseudoClass} :
    PseudoClass.ofName? text = some pseudo ↔ text = pseudo.name := by
  constructor
  · intro h
    have hname := List.find?_some h
    exact (beq_iff_eq.mp hname).symm
  · rintro rfl
    cases pseudo <;> decide

theorem elementOfName?_iff {text : String} {pseudo : PseudoElement} :
    PseudoElement.ofName? text = some pseudo ↔ Text.sameFolded text pseudo.name = true := by
  rw [← lowercase_eq_iff (lowercase_element pseudo)]
  constructor
  · intro h
    have hname := List.find?_some h
    rw [Text.sameFolded, lowercase_element, beq_iff_eq] at hname
    exact hname.symm
  · intro h
    simp only [PseudoElement.ofName?, Text.sameFolded, h]
    cases pseudo <;> decide

theorem positional?_iff {name : String} {make : AnPlusB → SimpleSelector} :
    Parser.positional? name = some make ↔
      name = "nth-child" ∧ make = .nthChild ∨ name = "nth-last-child" ∧ make = .nthLastChild := by
  unfold Parser.positional?
  split_ifs with hchild hlast
  · simp [hchild, eq_comm]
  · simp [hlast, eq_comm]
  · simp [hchild, hlast]

theorem logical?_iff {name : String} {make : SelectorList → SimpleSelector} :
    Parser.logical? name = some make ↔
      name = "not" ∧ make = .notAny ∨ name = "is" ∧ make = .isAny ∨
        name = "matches" ∧ make = .isAny ∨ name = "where" ∧ make = .whereAny := by
  unfold Parser.logical?
  split_ifs with hnot his hwhere
  · simp [hnot, eq_comm]
  · rcases his with his | his <;> simp [his, eq_comm]
  · simp [hwhere, eq_comm]
  · simp_all

/-! ### The vocabulary -/

theorem vocabulary : Vocabulary where
  combinator c combinator := by
    constructor
    · intro h
      have hsign := List.find?_some h
      have hmem := List.mem_of_find?_eq_some h
      rw [beq_iff_eq] at hsign
      subst hsign
      cases combinator <;> simp_all [Combinator.sign]
    · intro h
      simp only [List.mem_cons, Prod.mk.injEq, List.not_mem_nil, or_false] at h
      rcases h with ⟨rfl, rfl⟩ | ⟨rfl, rfl⟩ | ⟨rfl, rfl⟩ <;> rfl
  comparison op tokens := by
    cases op <;> simp [comparison, AttributeOp.sign?]
  nthPart token := by
    unfold Parser.isNthPart
    cases token <;> simp
  positional name make := by
    rw [positional?_iff, lowercase_eq_iff (by decide), lowercase_eq_iff (by decide)]
  logical name make := by
    rw [logical?_iff, lowercase_eq_iff (by decide), lowercase_eq_iff (by decide),
      lowercase_eq_iff (by decide), lowercase_eq_iff (by decide)]
  pseudoElement _ _ := elementOfName?_iff
  legacyElement name pseudo := by
    rw [elementOfName?_iff, Text.sameFolded, Text.lowercase_lowercase, Text.sameFolded]
  pseudoClass name pseudo := by
    rw [classOfName?_iff, lowercase_eq_iff (lowercase_class pseudo)]
  disjoint pseudo := by
    cases pseudo <;> decide

end Grammar

/-- No tokens derive two lists of selectors. -/
theorem Grammar.Alternatives.unique {tokens : List Token} {first second : SelectorList}
    (hfirst : Grammar.Alternatives tokens first) (hsecond : Grammar.Alternatives tokens second) :
    first = second := by
  rw [← SelectorList.ofTokens_eq_ok_iff] at hfirst hsecond
  exact Except.ok.inj (hfirst.symm.trans hsecond)

/-- **The reader accepts just the tokens that derive a list of selectors, and returns that
list.** -/
theorem SelectorList.ofTokens_iff_derives :
    Grammar.Vocabulary ∧ ∀ (tokens : List Token) (selectors : SelectorList),
      SelectorList.ofTokens tokens = .ok selectors ↔ Grammar.Alternatives tokens selectors :=
  ⟨Grammar.vocabulary, fun _ _ => SelectorList.ofTokens_eq_ok_iff⟩

end DomQuery

import DomQuery.Proofs.Matching.Chain
import DomQuery.Proofs.Relative.Navigation
import DomQuery.Relative.Plan

/-!
# The scope in front of a combinator

A clause that begins with a combinator is searched with a selector in front of it, which `:scope`
makes stand for one element: `:scope` itself for the element that is searched, and
`:scope > :nth-child(n)` for a child of it (`ComplexSelector.childAt`).

The texts write the selector of the clause joined to the one in front
(`SelectorList.ofText_scope_sign`, `SelectorList.ofText_childAt_sign`).  What is matched by a joined
selector is the first of a line for the selector of the clause, and the last of the line is related
to an element that matches what is in front (`Dom.Forest.matchesComplex_joined_iff`).
-/

namespace DomQuery

/-- The child of the scope at the position. -/
def ComplexSelector.childAt (position : Nat) : ComplexSelector :=
  .combined (.compound [.pseudoClass .scope]) .child [.nthChild (.single position)]

/-! ### Texts -/

namespace SelectorList

variable {text : String} {lower : ComplexSelector} {c : Char} {combinator : Combinator}

theorem ofText_scope_sign (hsign : Combinator.ofSign? c = some combinator)
    (hread : SelectorList.ofText text = .ok [lower]) :
    SelectorList.ofText (":scope " ++ String.ofList (c :: text.toList)) =
      .ok [(ComplexSelector.compound [.pseudoClass .scope]).joined combinator lower] := by
  have hspelled := ComplexSelector.Spelled.compound spelledCompound_scope
  have htext : ":scope " ++ String.ofList (c :: text.toList) =
      String.ofList (":scope".toList ++ ' ' :: c :: text.toList) := by
    rw [← String.toList_inj]
    simp
  rw [htext]
  exact hspelled.ofText_sign hsign hread

theorem ofText_childAt_sign {position : Nat} (hposition : position < 2147483648)
    (hsign : Combinator.ofSign? c = some combinator)
    (hread : SelectorList.ofText text = .ok [lower]) :
    SelectorList.ofText (":scope > :nth-child(" ++ toString position ++ ") " ++
        String.ofList (c :: text.toList)) =
      .ok [(ComplexSelector.childAt position).joined combinator lower] := by
  have hnth : SpelledCompound [.nthChild (.single position)]
      (':' :: ("nth-child".toList ++ '(' :: (Nat.toDigits 10 position ++ [')']))) :=
    spelledCompound_nthChild hposition
  have hspelled := (ComplexSelector.Spelled.compound spelledCompound_scope).child hnth (by decide)
  have htext : ":scope > :nth-child(" ++ toString position ++ ") " ++
      String.ofList (c :: text.toList) = String.ofList (":scope".toList ++ ' ' :: '>' :: ' ' ::
        ':' :: ("nth-child".toList ++ '(' :: (Nat.toDigits 10 position ++ [')'])) ++
          ' ' :: c :: text.toList) := by
    rw [← String.toList_inj]
    simp
  rw [htext]
  exact hspelled.ofText_sign hsign hread

end SelectorList

/-! ### What a text opens with -/

namespace Plan

theorem opensWith_ofList (c d : Char) (text : List Char) :
    opensWith (String.ofList (c :: text)) d = (c == d) := by
  simp [opensWith]

theorem opensWith_of_ofText {text : String} {selectors : SelectorList}
    (hread : SelectorList.ofText text = .ok selectors) {c : Char} (hc : c ∈ ['>', '+', '~']) :
    opensWith text c = false := by
  rw [opensWith, beq_eq_false_iff_ne]
  exact SelectorList.head_of_ofText hread hc

/-! ### Plans at an anchor -/

section AtAnchor

variable {dom : Dom} {anchor parent : Handle} {c : Char}

theorem atAnchor_child (dom : Dom) (anchor : Handle) (rest : List Char) :
    atAnchor dom anchor (String.ofList ('>' :: rest)) =
      .search anchor (":scope " ++ String.ofList ('>' :: rest)) := by
  simp only [atAnchor, opensWith_ofList]
  rfl

theorem atAnchor_sibling (hc : c = '+' ∨ c = '~') (hparent : dom.parentElement? anchor = some parent)
    {position : Nat} (hposition : dom.elementPosition? anchor = some position) (rest : List Char) :
    atAnchor dom anchor (String.ofList (c :: rest)) =
      .search parent (":scope > :nth-child(" ++ toString position ++ ") " ++
        String.ofList (c :: rest)) := by
  have hopens : (c == '+' || c == '~') = true := by
    rcases hc with rfl | rfl <;> rfl
  simp only [atAnchor, opensWith_ofList, hopens, hparent, hposition, if_true]

theorem atAnchor_alone (hc : c = '+' ∨ c = '~') (hparent : dom.parentElement? anchor = none)
    (rest : List Char) : atAnchor dom anchor (String.ofList (c :: rest)) = .answer none := by
  have hopens : (c == '+' || c == '~') = true := by
    rcases hc with rfl | rfl <;> rfl
  simp only [atAnchor, opensWith_ofList, hopens, hparent, if_true]

end AtAnchor

end Plan

namespace Dom

variable {dom : Dom} {kids : Handle → List Handle} {anchor node other : Handle} {text : String}
  {simples : List SimpleSelector} {combinator : Combinator}

/-! ### Matching -/

/-- What a search below an element finds. -/
theorem mem_all_search_iff {selector : ComplexSelector} (helement : dom.isElement anchor = true)
    (hread : SelectorList.ofText text = .ok [selector]) :
    node ∈ (Plan.search anchor text).all dom ↔
      node ∈ dom.descendants anchor ∧ dom.matchesComplex (some anchor) selector node = true := by
  simp [Plan.all, querySelectorAll_of_isElement helement hread, matchesAny]

theorem matchesComplex_scope_iff (scope : Handle) :
    dom.matchesComplex (some scope) (.compound [.pseudoClass .scope]) node = true ↔
      dom.isElement node = true ∧ node = scope := by
  rw [matchesComplex, Option.any_eq_true]
  simp only [satisfiesAll, satisfies, inState, Bool.and_true, beq_iff_eq]
  constructor
  · rintro ⟨element, helement, rfl⟩
    exact ⟨by rw [isElement, helement, Option.isSome_some], rfl⟩
  · rintro ⟨helement, rfl⟩
    obtain ⟨element, hsome⟩ := exists_element helement
    exact ⟨element, hsome, rfl⟩

theorem matchesComplex_combined_iff (scope : Option Handle) (left : ComplexSelector) :
    dom.matchesComplex scope (.combined left combinator simples) node = true ↔
      dom.matchesCompound scope simples node = true ∧
        ∃ other ∈ dom.candidates combinator node, dom.matchesComplex scope left other = true := by
  rw [matchesComplex, ← matchesCompound, Bool.and_eq_true, List.any_eq_true]

/-- The child of the scope at the position of the anchor is the anchor. -/
theorem matchesComplex_childAt_iff (hdom : dom.Reachable) {parent : Handle}
    {before after : List Handle} (hparentElement : dom.isElement parent = true)
    (hsplit : dom.elementChildren parent = before ++ anchor :: after)
    (hbound : (dom.elementChildren parent).length < 2147483648) :
    dom.matchesComplex (some parent) (.childAt (before.length + 1)) other = true ↔
      other = anchor := by
  have hposition : before.length + 1 < 2147483648 := by
    have hlength := congrArg List.length hsplit
    rw [List.length_append, List.length_cons] at hlength
    omega
  rw [ComplexSelector.childAt, matchesComplex_combined_iff, matchesCompound_iff]
  simp only [candidates, Option.mem_toList, matchesComplex_scope_iff, satisfiesAll, Bool.and_true]
  constructor
  · rintro ⟨⟨element, hsome, hnth⟩, above, habove, -, rfl⟩
    have hparent := (Option.filter_eq_some_iff.mp habove).1
    have helement : dom.isElement other = true := by rw [isElement, hsome, Option.isSome_some]
    obtain ⟨left, right, hplace⟩ := hdom.forest.exists_elementChildren_split hparent helement
    rw [hdom.forest.satisfies_nthChild_single _ hplace hbound hposition] at hnth
    exact eq_of_same_position hplace hsplit (by omega)
  · rintro rfl
    have hmem : other ∈ dom.elementChildren parent := by simp [hsplit]
    have hparent := hdom.forest.parent_of_mem_elementChildren hmem
    obtain ⟨element, hsome⟩ := exists_element (List.mem_filter.mp hmem).2
    refine ⟨⟨element, hsome, ?_⟩, parent, ?_, hparentElement, rfl⟩
    · exact (hdom.forest.satisfies_nthChild_single _ hsplit hbound hposition element).mpr rfl
    · exact Option.filter_eq_some_iff.mpr ⟨hparent, hparentElement⟩

/-- A joined selector is matched by the first of a line for the selector on the right, if the last
one has an element on its left that matches the selector on the left. -/
theorem Forest.matchesComplex_joined_iff (h : Forest dom kids) (scope : Option Handle)
    (left : ComplexSelector) (combinator : Combinator) :
    ∀ (right : ComplexSelector) (node : Handle),
      dom.matchesComplex scope (left.joined combinator right) node = true ↔
        ∃ line last, dom.Line scope right.parts (node :: line) ∧
          (node :: line).getLast? = some last ∧ ∃ other, dom.Related combinator last other ∧
            dom.matchesComplex scope left other = true
  | .compound simples, node => by
      rw [ComplexSelector.joined, matchesComplex_combined_iff]
      constructor
      · rintro ⟨hnode, other, hother, hleft⟩
        rw [h.mem_candidates (isElement_of_matchesCompound hnode)] at hother
        exact ⟨[], node, Line.single hnode, rfl, other, hother, hleft⟩
      · rintro ⟨line, last, hline, hlast, other, hother, hleft⟩
        obtain rfl : line = [] := List.eq_nil_of_length_eq_zero hline.tail.length_eq
        obtain rfl : node = last := Option.some.inj hlast
        have hnode := hline.head
        exact ⟨hnode, other, (h.mem_candidates (isElement_of_matchesCompound hnode)).mpr hother,
          hleft⟩
  | .combined middle inner simples, node => by
      rw [ComplexSelector.joined, matchesComplex_combined_iff]
      constructor
      · rintro ⟨hnode, next, hnext, hmatches⟩
        rw [h.mem_candidates (isElement_of_matchesCompound hnode)] at hnext
        obtain ⟨line, last, hline, hlast, hother⟩ :=
          (h.matchesComplex_joined_iff scope left combinator middle next).mp hmatches
        refine ⟨next :: line, last, hline.cons hnode hnext, ?_, hother⟩
        rwa [List.getLast?_cons_cons]
      · rintro ⟨line, last, hline, hlast, hother⟩
        have hnode := hline.head
        cases line with
        | nil =>
            have hlength := hline.tail.length_eq
            exact absurd (List.eq_nil_of_length_eq_zero hlength.symm) middle.parts_ne_nil
        | cons next line =>
            have hnext : dom.Related inner node next := hline.related (i := 0) rfl rfl rfl
            rw [List.getLast?_cons_cons] at hlast
            refine ⟨hnode, next, (h.mem_candidates (isElement_of_matchesCompound hnode)).mpr hnext,
              ?_⟩
            exact (h.matchesComplex_joined_iff scope left combinator middle next).mpr
              ⟨line, last, hline.tail, hlast, hother⟩

/-! ### Lines -/

theorem Line.isElement_of_mem {scope : Option Handle}
    {parts : List (List SimpleSelector × Option Combinator)} {line : List Handle}
    (hline : dom.Line scope parts line) (hmem : node ∈ line) : dom.isElement node = true := by
  obtain ⟨i, hnode⟩ := List.mem_iff_getElem?.mp hmem
  have hi : i < parts.length := by
    rw [← hline.length_eq]
    exact (List.getElem?_eq_some_iff.mp hnode).choose
  exact isElement_of_matchesCompound (hline.compound (List.getElem?_eq_getElem hi) hnode)

/-- What is related to a node below the top is below the top. -/
theorem Forest.mem_descendants_of_related (h : Forest dom kids) {top : Handle}
    (hrelated : dom.Related combinator node other) (hother : other ∈ dom.descendants top) :
    node ∈ dom.descendants top := by
  cases combinator with
  | descendant =>
      have hbelow : dom.Below node other := Relation.TransGen.mono
        (fun _ _ hstep => (Option.filter_eq_some_iff.mp hstep).1) node other hrelated
      rw [h.mem_descendants] at hother ⊢
      exact hbelow.trans hother
  | child =>
      have hparent := (Option.filter_eq_some_iff.mp hrelated).1
      exact h.mem_descendants_of_parent hparent (Or.inr hother)
  | nextSibling =>
      obtain ⟨parent, -, -, hparent, hsame, -⟩ := hrelated
      exact h.mem_descendants_of_sibling hother hsame hparent
  | subsequentSibling =>
      obtain ⟨parent, -, -, -, hparent, hsame, -⟩ := hrelated
      exact h.mem_descendants_of_sibling hother hsame hparent

/-- A line that ends below the top is all below it. -/
theorem Forest.mem_descendants_of_line (h : Forest dom kids) {scope : Option Handle}
    {top last : Handle} (hlast : last ∈ dom.descendants top) :
    ∀ (selector : ComplexSelector) (node : Handle) (line : List Handle),
      dom.Line scope selector.parts (node :: line) → (node :: line).getLast? = some last →
        node ∈ dom.descendants top
  | .compound simples, node, line, hline, hend => by
      obtain rfl : line = [] := List.eq_nil_of_length_eq_zero hline.tail.length_eq
      obtain rfl : node = last := Option.some.inj hend
      exact hlast
  | .combined middle combinator simples, node, line, hline, hend => by
      cases line with
      | nil =>
          have hlength := hline.tail.length_eq
          exact absurd (List.eq_nil_of_length_eq_zero hlength.symm) middle.parts_ne_nil
      | cons next line =>
          have hrelated : dom.Related combinator node next := hline.related (i := 0) rfl rfl rfl
          rw [List.getLast?_cons_cons] at hend
          exact h.mem_descendants_of_related hrelated
            (h.mem_descendants_of_line hlast middle next line hline.tail hend)

/-! ### Searching behind a combinator -/

section Search

variable {scope parent : Handle} {left lower : ComplexSelector} {c : Char}

/-- A search for a selector joined to one that stands for the anchor alone. -/
theorem Forest.mem_search_joined_iff (h : Forest dom kids) (hscope : dom.isElement scope = true)
    (hread : SelectorList.ofText text = .ok [left.joined combinator lower])
    (hleft : ∀ other, dom.matchesComplex (some scope) left other = true ↔ other = anchor)
    (hbelow : ∀ last, dom.Related combinator last anchor → last ∈ dom.descendants scope) :
    node ∈ (Plan.search scope text).all dom ↔
      ∃ line last, dom.Line (some scope) lower.parts line ∧ line.head? = some node ∧
        line.getLast? = some last ∧ dom.Related combinator last anchor := by
  rw [mem_all_search_iff hscope hread, h.matchesComplex_joined_iff]
  simp only [hleft, exists_eq_right]
  constructor
  · rintro ⟨-, line, last, hline, hlast, hrelated⟩
    exact ⟨node :: line, last, hline, rfl, hlast, hrelated⟩
  · rintro ⟨line, last, hline, hhead, hlast, hrelated⟩
    obtain ⟨rest, rfl⟩ := List.head?_eq_some_iff.mp hhead
    refine ⟨?_, rest, last, hline, hlast, hrelated⟩
    exact h.mem_descendants_of_line (hbelow last hrelated) lower node rest hline hlast

/-- What `:scope` stands for in the search for a clause that begins with the combinator. -/
def signScope (dom : Dom) (combinator : Combinator) (anchor : Handle) : Option Handle :=
  match combinator with
  | .descendant => some anchor
  | .child => some anchor
  | .nextSibling => dom.parentElement? anchor
  | .subsequentSibling => dom.parentElement? anchor

theorem mem_atAnchor_child_iff (hdom : dom.Reachable) (helement : dom.isElement anchor = true)
    (hread : SelectorList.ofText text = .ok [lower]) :
    node ∈ (Plan.atAnchor dom anchor (String.ofList ('>' :: text.toList))).all dom ↔
      ∃ line last, dom.Line (some anchor) lower.parts line ∧ line.head? = some node ∧
        line.getLast? = some last ∧ dom.Related .child last anchor := by
  rw [Plan.atAnchor_child]
  apply hdom.forest.mem_search_joined_iff helement (SelectorList.ofText_scope_sign rfl hread)
  · intro other
    rw [matchesComplex_scope_iff, and_iff_right_iff_imp]
    rintro rfl
    exact helement
  · intro last hrelated
    have hparent := (Option.filter_eq_some_iff.mp hrelated).1
    exact hdom.forest.mem_descendants_of_parent hparent (Or.inl rfl)

theorem mem_atAnchor_sibling_iff (hdom : dom.Reachable) (helement : dom.isElement anchor = true)
    (hparent : dom.parentElement? anchor = some parent)
    (hbound : (dom.elementChildren parent).length < 2147483648) (hc : c = '+' ∨ c = '~')
    (hsign : Combinator.ofSign? c = some combinator)
    (hread : SelectorList.ofText text = .ok [lower]) :
    node ∈ (Plan.atAnchor dom anchor (String.ofList (c :: text.toList))).all dom ↔
      ∃ line last, dom.Line (some parent) lower.parts line ∧ line.head? = some node ∧
        line.getLast? = some last ∧ dom.Related combinator last anchor := by
  obtain ⟨habove, hparentElement⟩ := Option.filter_eq_some_iff.mp hparent
  obtain ⟨before, after, hsplit⟩ := hdom.forest.exists_elementChildren_split habove helement
  have hposition : before.length + 1 < 2147483648 := by
    have hlength := congrArg List.length hsplit
    rw [List.length_append, List.length_cons] at hlength
    omega
  rw [Plan.atAnchor_sibling hc hparent (elementPosition?_eq hdom hsplit)]
  apply hdom.forest.mem_search_joined_iff hparentElement
    (SelectorList.ofText_childAt_sign hposition hsign hread)
  · intro other
    exact matchesComplex_childAt_iff hdom hparentElement hsplit hbound
  · intro last hrelated
    have hanchor := hdom.forest.mem_descendants_of_parent habove (Or.inl rfl)
    exact hdom.forest.mem_descendants_of_related hrelated hanchor

/-- A clause that begins with the sign of a combinator finds the first nodes of the lines whose last
node the combinator relates to the anchor. -/
theorem mem_atAnchor_sign_iff (hdom : dom.Reachable) (helement : dom.isElement anchor = true)
    (hbound : ∀ parent, dom.parentElement? anchor = some parent →
      (dom.elementChildren parent).length < 2147483648)
    (hsign : Combinator.ofSign? c = some combinator)
    (hread : SelectorList.ofText text = .ok [lower]) :
    node ∈ (Plan.atAnchor dom anchor (String.ofList (c :: text.toList))).all dom ↔
      ∃ scope line last, dom.signScope combinator anchor = some scope ∧
        dom.Line (some scope) lower.parts line ∧ line.head? = some node ∧
        line.getLast? = some last ∧ dom.Related combinator last anchor := by
  have hsibling : (c = '+' ∨ c = '~') → dom.signScope combinator anchor =
      dom.parentElement? anchor := by
    rintro (rfl | rfl) <;> cases hsign <;> rfl
  have hmem := Combinator.ofSign?_cases hsign
  simp only [List.mem_cons, List.not_mem_nil, or_false] at hmem
  rcases hmem with rfl | hc
  · obtain rfl : combinator = .child := Option.some.inj hsign.symm
    rw [mem_atAnchor_child_iff hdom helement hread]
    simp only [signScope, Option.some.injEq, exists_and_left, exists_eq_left']
  · rw [hsibling hc]
    cases hparent : dom.parentElement? anchor with
    | none =>
        rw [Plan.atAnchor_alone hc hparent]
        simp [Plan.all]
    | some parent =>
        rw [mem_atAnchor_sibling_iff hdom helement hparent (hbound parent hparent) hc hsign hread]
        simp only [Option.some.injEq, exists_and_left, exists_eq_left']

end Search

end Dom

end DomQuery

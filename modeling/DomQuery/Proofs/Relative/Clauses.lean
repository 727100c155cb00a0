import DomQuery.Proofs.Matching.Scope
import DomQuery.Proofs.Relative.Addressing
import DomQuery.Proofs.Relative.Engine
import DomQuery.Proofs.Relative.Scoped
import DomQuery.Proofs.Relative.WrittenOut

/-!
# Clauses written out

A lone clause is searched at its anchor, and a clause among several is written out from the
document.  For a clause that ends in a compound without `:scope` both find the same elements
(`Addressable.mem_all_ofSingle_iff`): those that meet the compound and have the anchor where the
combinator says.

On the one side `:scope` names the anchor, or the parent of the anchor together with its position.
On the other side its path does, which is why the document has to be addressable.
-/

namespace DomQuery

/-- What a clause leaves after its steps: nothing, or a compound that does not use `:scope`, with
or without a combinator in front. -/
inductive Plan.Remainder : String → Option (Combinator × List SimpleSelector) → Prop where
  | nothing : Remainder "" none
  | below {text : String} {simples : List SimpleSelector} :
      SelectorList.ofText text = .ok [.compound simples] → compoundUsesScope simples = false →
        Remainder text (some (.descendant, simples))
  | sign {c : Char} {combinator : Combinator} {text : String} {simples : List SimpleSelector} :
      Combinator.ofSign? c = some combinator →
        SelectorList.ofText text = .ok [.compound simples] → compoundUsesScope simples = false →
          Remainder (String.ofList (c :: text.toList)) (some (combinator, simples))

namespace Dom

open Plan

variable {dom : Dom} {document anchor node : Handle} {rest text : String}
  {simples : List SimpleSelector} {combinator : Combinator}

/-- The selector of a clause that is written out from the document. -/
def writtenSelector (dom : Dom) (anchor : Handle) :
    Option (Combinator × List SimpleSelector) → ComplexSelector
  | none => dom.pathSelector (anchor :: dom.ancestors anchor)
  | some (combinator, simples) =>
      .combined (dom.pathSelector (anchor :: dom.ancestors anchor)) combinator simples

/-! ### The text -/

theorem exists_continuation (dom : Dom) (anchor : Handle)
    {remainder : Option (Combinator × List SimpleSelector)} (hrest : Remainder rest remainder) :
    ∃ continuation, Continuation rest continuation ∧
      (dom.pathSelector (anchor :: dom.ancestors anchor)).continued continuation =
        dom.writtenSelector anchor remainder := by
  cases hrest with
  | nothing => exact ⟨_, .nothing, rfl⟩
  | below hread _ => exact ⟨_, .below hread, rfl⟩
  | sign hsign hread _ => exact ⟨_, .sign hsign hread, rfl⟩

/-- A clause that has an anchor in the document is written out, and its text is accepted. -/
theorem Addressable.exists_writtenOut (h : dom.Addressable document) (hdom : dom.Reachable)
    (halone : dom.parent? document = none) (hanchor : anchor ∈ dom.descendants document)
    (helement : dom.isElement anchor = true)
    {remainder : Option (Combinator × List SimpleSelector)} (hrest : Remainder rest remainder)
    (hplain : EndsPlain rest) :
    ∃ text, writtenOut dom ⟨some anchor, rest⟩ = some text ∧
      SelectorList.ofText text = .ok [dom.writtenSelector anchor remainder] := by
  have hrooted := h.rooted hdom hanchor helement
  have hnamed : ∀ other, dom.Rooted document other → dom.PlainlyNamed other := fun _ hother =>
    h.navigable.plainlyNamed hdom (hother.mem_descendants hdom) hother.isElement
  have hcalled := hrooted.of_mem_calledNodes hdom halone
  obtain ⟨continuation, hcontinuation, heq⟩ := exists_continuation dom anchor hrest
  rw [← heq, ← hrooted.readPath_eq hdom halone hnamed]
  refine Dom.exists_writtenOut (hrooted.pathSteps_ne_nil hdom)
    (fun node hnode => (hnamed node (hcalled node hnode)).legible)
    (fun node hnode => h.blankFree ((hcalled node hnode).mem_descendants hdom))
    hcontinuation hplain fun _ id hid c hc hblank => ?_
  -- no blank is in the `id`
  obtain ⟨-, hvalue⟩ := attributeValue?_of_pathId? hid
  have hplain := (h.id_plain anchor hanchor id hvalue c (List.mem_of_getLast? hc)).1
  exact absurd (hblank.symm.trans hplain) (by simp)

/-! ### The document -/

namespace Addressable

/-- Among the elements of the document, the selector that is written out for a compound is matched
by those that have the anchor where the combinator says. -/
theorem matchesComplex_writtenSelector_iff (h : dom.Addressable document) (hdom : dom.Reachable)
    (halone : dom.parent? document = none) (hanchor : anchor ∈ dom.descendants document)
    (helement : dom.isElement anchor = true) (scope : Option Handle)
    (hnode : node ∈ dom.descendants document) :
    dom.matchesComplex scope (dom.writtenSelector anchor (some (combinator, simples))) node =
        true ↔
      dom.matchesCompound scope simples node = true ∧ dom.Related combinator node anchor := by
  -- the path singles out the anchor
  have hpath : ∀ other ∈ dom.descendants document, dom.matchesComplex scope
      (dom.pathSelector (anchor :: dom.ancestors anchor)) other = true ↔ other = anchor :=
    fun _ => h.matchesComplex_pathSelector_iff hdom halone scope hanchor helement
  rw [writtenSelector, matchesComplex_combined_iff]
  refine and_congr_right fun hcompound => ?_
  have hcandidates : ∀ other, other ∈ dom.candidates combinator node ↔
      dom.Related combinator node other :=
    fun other => hdom.forest.mem_candidates (isElement_of_matchesCompound hcompound)
  constructor
  · rintro ⟨other, hother, hmatches⟩
    rw [hcandidates] at hother
    have htop := dom.isElement_eq_false_of_isDocument h.isDocument
    rw [hpath other (hdom.forest.related_mem_descendants htop hnode hother)] at hmatches
    exact hmatches ▸ hother
  · intro hrelated
    exact ⟨anchor, (hcandidates anchor).mpr hrelated, (hpath anchor hanchor).mpr rfl⟩

/-! ### Searching at the anchor -/

/-- What is below an element of the document is in the document. -/
theorem mem_descendants_trans (hdom : dom.Reachable) (hanchor : anchor ∈ dom.descendants document)
    (hnode : node ∈ dom.descendants anchor) : node ∈ dom.descendants document := by
  rw [hdom.forest.mem_descendants] at hanchor hnode ⊢
  exact hnode.trans hanchor

/-- Since only elements stand between, an element is below another if the descendant combinator
relates them. -/
theorem below_iff_related (h : dom.Addressable document) (hdom : dom.Reachable)
    (hanchor : anchor ∈ dom.descendants document) (helement : dom.isElement anchor = true)
    (hnodeElement : dom.isElement node = true) :
    node ∈ dom.descendants anchor ↔ dom.Related .descendant node anchor := by
  rw [hdom.forest.mem_descendants]
  have hlink : ∀ {first second : Handle}, Leads dom.parent? first second →
      dom.isElement second = true → Leads dom.parentElement? first second :=
    fun hstep hsecond => Option.filter_eq_some_iff.mpr ⟨hstep, hsecond⟩
  constructor
  · intro hbelow
    induction hbelow using Relation.TransGen.head_induction_on with
    | single hstep => exact Relation.TransGen.single (hlink hstep helement)
    | @head first second hstep hrest ih =>
        have hsecond : second ∈ dom.descendants document :=
          mem_descendants_trans hdom hanchor (hdom.forest.mem_descendants.mpr hrest)
        have hfirst := hdom.forest.mem_descendants_of_parent hstep (Or.inr hsecond)
        rcases h.parent_cases hdom hfirst hnodeElement hstep with rfl | ⟨-, hsecondElement⟩
        · exact absurd (hdom.forest.mem_descendants.mp hsecond) (hdom.forest.not_below_self _)
        · exact Relation.TransGen.head (hlink hstep hsecondElement) (ih hsecondElement)
  · intro hrelated
    exact Relation.TransGen.mono (fun _ _ hstep => (Option.filter_eq_some_iff.mp hstep).1)
      node anchor hrelated

theorem mem_search_below_iff (h : dom.Addressable document) (hdom : dom.Reachable)
    (hanchor : anchor ∈ dom.descendants document) (helement : dom.isElement anchor = true)
    (scope : Option Handle) (hread : SelectorList.ofText text = .ok [.compound simples])
    (hscope : compoundUsesScope simples = false) :
    node ∈ (Plan.search anchor text).all dom ↔
      node ∈ dom.descendants document ∧ dom.matchesCompound scope simples node = true ∧
        dom.Related .descendant node anchor := by
  rw [mem_all_search_iff helement hread, matchesComplex, ← matchesCompound,
    dom.matchesCompound_of_not_usesScope (some anchor) scope hscope]
  constructor
  · rintro ⟨hbelow, hcompound⟩
    exact ⟨mem_descendants_trans hdom hanchor hbelow, hcompound,
      (h.below_iff_related hdom hanchor helement (isElement_of_matchesCompound hcompound)).mp hbelow⟩
  · rintro ⟨-, hcompound, hrelated⟩
    exact ⟨(h.below_iff_related hdom hanchor helement
      (isElement_of_matchesCompound hcompound)).mpr hrelated, hcompound⟩

/-- Siblings have the same parent, among whose element children they stand apart. -/
theorem exists_parent_of_sibling
    (hcombinator : combinator = .nextSibling ∨ combinator = .subsequentSibling)
    (hrelated : dom.Related combinator node anchor) :
    ∃ parent, dom.parent? node = some parent ∧ dom.parent? anchor = some parent ∧
      2 ≤ (dom.elementChildren parent).length := by
  rcases hcombinator with rfl | rfl
  · obtain ⟨parent, before, after, hnode, hanchor, hsplit⟩ := hrelated
    refine ⟨parent, hnode, hanchor, ?_⟩
    rw [hsplit]
    simp
    omega
  · obtain ⟨parent, before, between, after, hnode, hanchor, hsplit⟩ := hrelated
    refine ⟨parent, hnode, hanchor, ?_⟩
    rw [hsplit]
    simp
    omega

/-- Only the root element has no element for `:scope` to stand for, and it has no siblings. -/
theorem exists_signScope (h : dom.Addressable document) (hdom : dom.Reachable)
    (hanchor : anchor ∈ dom.descendants document) (helement : dom.isElement anchor = true)
    (hrelated : dom.Related combinator node anchor) :
    ∃ scope, dom.signScope combinator anchor = some scope := by
  have hsibling : combinator = .nextSibling ∨ combinator = .subsequentSibling →
      ∃ parent, dom.parentElement? anchor = some parent := by
    intro hcombinator
    obtain ⟨parent, -, hparent, hlength⟩ := exists_parent_of_sibling hcombinator hrelated
    rcases h.parent_cases hdom hanchor helement hparent with rfl | ⟨-, hparentElement⟩
    · obtain ⟨top, htop⟩ := h.exists_top
      rw [htop] at hlength
      exact absurd hlength (by simp)
    · exact ⟨parent, Option.filter_eq_some_iff.mpr ⟨hparent, hparentElement⟩⟩
  cases combinator with
  | descendant => exact ⟨anchor, rfl⟩
  | child => exact ⟨anchor, rfl⟩
  | nextSibling => exact hsibling (Or.inl rfl)
  | subsequentSibling => exact hsibling (Or.inr rfl)

/-- What the plan for the sign of a combinator and a compound finds. -/
theorem mem_atAnchor_compound_iff (h : dom.Addressable document) (hdom : dom.Reachable)
    (hanchor : anchor ∈ dom.descendants document) (helement : dom.isElement anchor = true) {c : Char}
    (hsign : Combinator.ofSign? c = some combinator) (scope : Option Handle)
    (hread : SelectorList.ofText text = .ok [.compound simples])
    (hscope : compoundUsesScope simples = false) :
    node ∈ (atAnchor dom anchor (String.ofList (c :: text.toList))).all dom ↔
      node ∈ dom.descendants document ∧ dom.matchesCompound scope simples node = true ∧
        dom.Related combinator node anchor := by
  have hbound : ∀ parent, dom.parentElement? anchor = some parent →
      (dom.elementChildren parent).length < 2147483648 := by
    intro parent hparent
    have habove := (Option.filter_eq_some_iff.mp hparent).1
    exact h.navigable.children_length_lt hdom
      (hdom.forest.parent_of_mem_descendants hanchor habove)
  rw [mem_atAnchor_sign_iff hdom helement hbound hsign hread]
  constructor
  · rintro ⟨inner, line, last, -, hline, hhead, hlast, hrelated⟩
    -- a line for one compound is one node
    obtain ⟨rest, rfl⟩ := List.head?_eq_some_iff.mp hhead
    obtain rfl : rest = [] := List.eq_nil_of_length_eq_zero hline.tail.length_eq
    obtain rfl : node = last := Option.some.inj hlast
    have hcompound := hline.head
    rw [dom.matchesCompound_of_not_usesScope (some inner) scope hscope] at hcompound
    exact ⟨hdom.forest.mem_descendants_of_related hrelated hanchor, hcompound, hrelated⟩
  · rintro ⟨-, hcompound, hrelated⟩
    obtain ⟨inner, hinner⟩ := h.exists_signScope hdom hanchor helement hrelated
    rw [dom.matchesCompound_of_not_usesScope scope (some inner) hscope] at hcompound
    exact ⟨inner, [node], node, hinner, Line.single hcompound, rfl, rfl, hrelated⟩

/-- A lone clause finds the elements of the document that match what is written out for it. -/
theorem mem_all_ofSingle_iff (h : dom.Addressable document) (hdom : dom.Reachable)
    (halone : dom.parent? document = none) (hanchor : anchor ∈ dom.descendants document)
    (helement : dom.isElement anchor = true) (scope : Option Handle)
    {remainder : Option (Combinator × List SimpleSelector)} (hrest : Remainder rest remainder) :
    node ∈ (ofSingle dom ⟨some anchor, rest⟩).all dom ↔
      node ∈ dom.descendants document ∧
        dom.matchesComplex scope (dom.writtenSelector anchor remainder) node = true := by
  cases hrest with
  | nothing =>
      have hpath : node ∈ dom.descendants document → (dom.matchesComplex scope
          (dom.pathSelector (anchor :: dom.ancestors anchor)) node = true ↔ node = anchor) :=
        h.matchesComplex_pathSelector_iff hdom halone scope hanchor helement
      have hplan : ofSingle dom ⟨some anchor, ""⟩ = .answer (some anchor) := by
        simp [ofSingle]
      rw [hplan, writtenSelector, Plan.all, Option.toList_some, List.mem_singleton]
      constructor
      · rintro rfl
        exact ⟨hanchor, (hpath hanchor).mpr rfl⟩
      · rintro ⟨hnode, hmatches⟩
        exact (hpath hnode).mp hmatches
  | below hread hscope =>
      have hplan : ofSingle dom ⟨some anchor, rest⟩ = .search anchor rest := by
        simp [ofSingle, atAnchor, Text.isEmpty_eq_false (SelectorList.ne_empty_of_ofText hread),
          opensWith_of_ofText hread]
      rw [hplan, h.mem_search_below_iff hdom hanchor helement scope hread hscope]
      exact and_congr_right fun hnode =>
        (h.matchesComplex_writtenSelector_iff hdom halone hanchor helement scope hnode).symm
  | @sign c combinator text simples hsign hread hscope =>
      have hplan : ofSingle dom ⟨some anchor, String.ofList (c :: text.toList)⟩ =
          atAnchor dom anchor (String.ofList (c :: text.toList)) := by
        rw [ofSingle, Text.isEmpty_eq_false (by simp), if_neg (by simp)]
      rw [hplan, h.mem_atAnchor_compound_iff hdom hanchor helement hsign scope hread hscope]
      exact and_congr_right fun hnode =>
        (h.matchesComplex_writtenSelector_iff hdom halone hanchor helement scope hnode).symm

end Addressable

end Dom

end DomQuery

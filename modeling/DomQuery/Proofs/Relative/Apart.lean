import DomQuery.Proofs.Relative.Legible
import DomQuery.Proofs.Relative.Union

/-!
# Clauses that stay apart

The query that is made of several clauses is read as one selector for each clause that has an
anchor, in the order of the clauses (`Engine.exists_selectors_of_plan`): the path of the anchor with
the rest of the clause behind it.  The `id`s in the paths can be any texts, with one exception.

Where nothing is left of a clause, trimming can cut into the escape at the end of the path.  The
backslash that it leaves takes the comma for itself, and two clauses become one
(`Dom.plan_spaced`).  So an `id` must not end there in a blank, unless it is a control character.
-/

namespace DomQuery

namespace Dom

open Plan

variable {dom : Dom} {document anchor : Handle} {clause : Located}

/-- The selector is the path of the anchor of the clause with the rest of the clause behind it. -/
inductive WrittenAs (dom : Dom) : Located → ComplexSelector → Prop where
  | mk {anchor : Handle} {rest : String} {upper : ComplexSelector}
      {continuation : Option (Combinator × ComplexSelector)} :
      SelectorList.ofText (dom.path anchor) = .ok [upper] → Continuation rest continuation →
        WrittenAs dom ⟨some anchor, rest⟩ (upper.continued continuation)

/-- Among the nodes below the document, tag names are identifiers without blanks. -/
def PlainTags (dom : Dom) (document : Handle) : Prop :=
  ∀ node ∈ dom.descendants document, ∀ name, dom.tagName? node = some name →
    name ≠ "" ∧ (∀ c ∈ name.toList, Text.isBlank c = false) ∧ Identifier.escape name = name

/-- The end of the clause is not cut into: something is left after its steps, or the `id` of its
anchor keeps its end. -/
def KeepsAnchor (dom : Dom) (clause : Located) : Prop :=
  clause.rest = "" → ∀ anchor, clause.anchor = some anchor → ∀ id, dom.pathId? anchor = some id →
    Identifier.KeepsEnd id

/-- A clause with an anchor is written out, and read as what it is written as. -/
theorem Rooted.exists_writtenAs (h : dom.Rooted document anchor) (hdom : dom.Reachable)
    (hsmall : dom.nodes.toList.length < 2147483648) (halone : dom.parent? document = none)
    (htags : dom.PlainTags document) (hanchor : clause.anchor = some anchor)
    (hrest : ∃ continuation, Continuation clause.rest continuation)
    (hplain : EndsPlain clause.rest) (hkeeps : dom.KeepsAnchor clause) :
    ∃ text selector, writtenOut dom clause = some text ∧
      SelectorList.ofText text = .ok [selector] ∧ dom.WrittenAs clause selector := by
  obtain ⟨_, rest⟩ := clause
  cases hanchor
  have hbelow : ∀ called ∈ dom.calledNodes (anchor :: dom.ancestors anchor),
      called ∈ dom.descendants document := fun called hcalled =>
    (h.of_mem_calledNodes hdom halone called hcalled).mem_descendants hdom
  have hcalled : ∀ called ∈ dom.calledNodes (anchor :: dom.ancestors anchor),
      dom.Legible called := by
    refine fun called hmem => hdom.legible hsmall fun name hname => ?_
    obtain ⟨hne, -, hescape⟩ := htags called (hbelow called hmem) name hname
    exact ⟨hne, hescape⟩
  have hblank : ∀ called ∈ dom.calledNodes (anchor :: dom.ancestors anchor),
      dom.BlankFree called :=
    fun called hmem name hname => (htags called (hbelow called hmem) name hname).2.1
  have hsteps := h.pathSteps_ne_nil hdom
  have hread := (spelled_readPath hsteps hcalled).ofText
  rw [← toList_path, String.ofList_toList] at hread
  obtain ⟨continuation, hcontinuation⟩ := hrest
  obtain ⟨text, hwritten, htext⟩ := exists_writtenOut hsteps hcalled hblank hcontinuation hplain
    fun hempty => hkeeps hempty anchor rfl
  exact ⟨text, _, hwritten, htext, .mk hread hcontinuation⟩

/-- The clauses that have an anchor are written out, each as a text for one selector. -/
theorem exists_selectors_of_located {clauses : List Located}
    (hclauses : ∀ clause ∈ clauses, clause.anchor.isSome = true →
      ∃ text selector, writtenOut dom clause = some text ∧
        SelectorList.ofText text = .ok [selector] ∧ dom.WrittenAs clause selector) :
    ∃ selectors, List.Forall₂ (fun text selector => SelectorList.ofText text = .ok [selector])
        (clauses.filterMap (writtenOut dom)) selectors ∧
      List.Forall₂ dom.WrittenAs (clauses.filter fun clause => clause.anchor.isSome) selectors := by
  induction clauses with
  | nil => exact ⟨[], .nil, .nil⟩
  | cons clause clauses ih =>
      obtain ⟨hfirst, hrest⟩ := List.forall_mem_cons.mp hclauses
      obtain ⟨selectors, hread, hwritten⟩ := ih hrest
      cases hanchor : clause.anchor with
      | none =>
          refine ⟨selectors, ?_, ?_⟩
          · rwa [List.filterMap_cons_none (by rw [writtenOut, hanchor, Option.bind_none])]
          · rwa [List.filter_cons_of_neg (by simp [hanchor])]
      | some anchor =>
          have hsome : clause.anchor.isSome = true := by rw [hanchor, Option.isSome_some]
          obtain ⟨text, selector, htext, hselector, has⟩ := hfirst hsome
          refine ⟨selector :: selectors, ?_, ?_⟩
          · rw [List.filterMap_cons_some htext]
            exact .cons hselector hread
          · rw [List.filter_cons_of_pos (by exact hsome)]
            exact .cons has hwritten

end Dom

/-! ### Plans -/

namespace Engine

open Plan

variable {dom : Dom} {context scope : Handle} {text selector : String}

/-- **Several clauses are read one by one.**  If a query is planned for a text of several clauses,
its selector is read as one complex selector for each clause that has an anchor, in order: the path
of the anchor with the rest of the clause behind it. -/
theorem exists_selectors_of_plan (hdom : dom.Reachable)
    (hsmall : dom.nodes.toList.length < 2147483648) (helement : dom.isElement context = true)
    (hdocument : dom.isDocument (dom.root context) = true)
    (hline : ∀ other ∈ dom.ancestors context, other ≠ dom.root context →
      dom.isElement other = true)
    (htags : dom.PlainTags (dom.root context))
    (hrelative : (ClauseList.ofText text).isRelative = true)
    (hseveral : 2 ≤ (ClauseList.ofText text).clauses.length) (engine : Engine)
    (hrest : ∀ clause ∈ (ClauseList.ofText text).clauses, ∃ continuation,
      Continuation ((locate dom context clause).run engine).1.rest continuation)
    (hkeeps : ∀ clause ∈ (ClauseList.ofText text).clauses,
      dom.KeepsAnchor ((locate dom context clause).run engine).1)
    (hplan : ((plan dom text context).run engine).1 = .search scope selector) :
    ∃ selectors, SelectorList.ofText selector = .ok selectors ∧
      List.Forall₂ dom.WrittenAs
        (((ClauseList.ofText text).clauses.map fun clause =>
          ((locate dom context clause).run engine).1).filter fun clause => clause.anchor.isSome)
        selectors := by
  have halone := hdom.forest.parent_root context
  have hne : context ≠ dom.root context := by
    intro heq
    rw [← heq, dom.isDocument_eq_false_of_isElement helement] at hdocument
    exact absurd hdocument (by simp)
  have hcontext := (hdom.forest.eq_or_mem_descendants_root context).resolve_left hne.symm
  have hrooted := Dom.Rooted.of_ancestors hdom hcontext helement hline
  simp only [yields_locate dom context _ engine] at hrest hkeeps ⊢
  -- every clause with an anchor is written out
  have hwritable : ∀ found ∈ (ClauseList.ofText text).clauses.map (located dom context),
      found.anchor.isSome = true → ∃ text selector, writtenOut dom found = some text ∧
        SelectorList.ofText text = .ok [selector] ∧ dom.WrittenAs found selector := by
    intro found hmem hsome
    obtain ⟨clause, hclause, rfl⟩ := List.mem_map.mp hmem
    obtain ⟨anchor, hanchor⟩ := Option.isSome_iff_exists.mp hsome
    have hplain := Dom.endsPlain_of_mem_clauses hclause
    exact (hrooted.of_located hdom halone hdocument hanchor).exists_writtenAs hdom hsmall halone
      htags hanchor (hrest clause hclause) (Dom.endsPlain_located hplain) (hkeeps clause hclause)
  obtain ⟨selectors, hread, hwritten⟩ := Dom.exists_selectors_of_located hwritable
  refine ⟨selectors, ?_, hwritten⟩
  rw [(asks_plan dom text context).yields engine, planned_several dom context hrelative hseveral,
    ofSeveral] at hplan
  split at hplan
  · exact absurd hplan (by simp)
  · next hne =>
      obtain ⟨-, rfl⟩ := Plan.search.inj hplan
      exact SelectorList.ofText_intercalate hne hread

/-- The clauses `-li` and `!ul >li` are planned for the second item of the listing. -/
theorem exists_selectors_listing :
    ∃ selectors, SelectorList.ofText "#a,ul >li" = .ok selectors ∧
      List.Forall₂ Dom.listing.WrittenAs [⟨some ⟨2, 0⟩, ""⟩, ⟨some ⟨1, 0⟩, ">li"⟩] selectors := by
  have hclauses : (ClauseList.ofText "-li, !ul >li").clauses = ["-li", "!ul >li"] := by
    decide +kernel
  have hfirst : ((locate Dom.listing ⟨3, 0⟩ "-li").run {}).1 = ⟨some ⟨2, 0⟩, ""⟩ := by
    rw [yields_locate]
    decide +kernel
  have hsecond : ((locate Dom.listing ⟨3, 0⟩ "!ul >li").run {}).1 = ⟨some ⟨1, 0⟩, ">li"⟩ := by
    rw [yields_locate]
    decide +kernel
  have hplan : ((plan Dom.listing "-li, !ul >li" ⟨3, 0⟩).run {}).1 =
      .search ⟨0, 0⟩ "#a,ul >li" := by
    rw [(asks_plan Dom.listing "-li, !ul >li" ⟨3, 0⟩).yields]
    decide +kernel
  have hrest : ∀ clause ∈ ["-li", "!ul >li"], ∃ continuation,
      Continuation ((locate Dom.listing ⟨3, 0⟩ clause).run {}).1.rest continuation := by
    intro clause hmem
    obtain ⟨remainder, hremainder⟩ := exists_remainder_listing {} clause hmem
    obtain ⟨continuation, hcontinuation, -⟩ :=
      Dom.exists_continuation Dom.listing ⟨3, 0⟩ hremainder
    exact ⟨continuation, hcontinuation⟩
  have hkeeps : ∀ clause ∈ ["-li", "!ul >li"],
      Dom.listing.KeepsAnchor ((locate Dom.listing ⟨3, 0⟩ clause).run {}).1 := by
    intro clause hmem
    simp only [List.mem_cons, List.not_mem_nil, or_false] at hmem
    rcases hmem with rfl | rfl
    · rw [hfirst]
      rintro - anchor ⟨⟩ id hid
      have hvalue : Dom.listing.pathId? ⟨2, 0⟩ = some "a" := by decide +kernel
      obtain rfl : id = "a" := Option.some.inj (hid.symm.trans hvalue)
      simp [Identifier.KeepsEnd, Text.isBlank]
    · rw [hsecond]
      exact fun hempty => absurd hempty (by simp)
  have hfound := exists_selectors_of_plan Dom.reachable_listing (by decide +kernel)
    (show Dom.listing.isElement ⟨3, 0⟩ = true from rfl) (by decide +kernel) (by decide +kernel)
    (show Dom.listing.PlainTags (Dom.listing.root ⟨3, 0⟩) from Dom.addressable_listing.tag_plain)
    (by decide +kernel) (by decide +kernel) {} (hclauses ▸ hrest) (hclauses ▸ hkeeps) hplan
  rw [hclauses] at hfound
  simpa [hfirst, hsecond] using hfound

end Engine

namespace Dom

open Plan Engine

/-! ### An `id` that does not keep its end -/

/-- The edits that build a document whose root element, with an `id` that ends in a space, holds one
element. -/
def spacedEdits : List Edit :=
  [.createDocument, .createElement "html" [⟨"id", "a "⟩], .createElement "li" [],
    .appendChild ⟨0, 0⟩ ⟨1, 0⟩, .appendChild ⟨1, 0⟩ ⟨2, 0⟩]

def spaced : Dom :=
  (Dom.empty.run? spacedEdits).getD Dom.empty

theorem reachable_spaced : spaced.Reachable :=
  Reachable.empty.run? (show Dom.empty.run? spacedEdits = some spaced from rfl)

/-- The two clauses are read as one, whose first compound asks for two `id`s. -/
theorem plan_spaced :
    spaced.Reachable ∧
      (spaced.isElement ⟨2, 0⟩ = true ∧ spaced.isDocument (spaced.root ⟨2, 0⟩) = true ∧
        (∀ other ∈ spaced.ancestors ⟨2, 0⟩, other ≠ spaced.root ⟨2, 0⟩ →
          spaced.isElement other = true) ∧
        spaced.PlainTags (spaced.root ⟨2, 0⟩) ∧ spaced.pathId? ⟨1, 0⟩ = some "a ") ∧
      ((ClauseList.ofText "!html, !html li").isRelative = true ∧
        (ClauseList.ofText "!html, !html li").clauses = ["!html", "!html li"] ∧
        Yields (locate spaced ⟨2, 0⟩ "!html") ⟨some ⟨1, 0⟩, ""⟩ ∧
        Yields (locate spaced ⟨2, 0⟩ "!html li") ⟨some ⟨1, 0⟩, "li"⟩ ∧
        SelectorList.ofText "li" = .ok [.compound [.tag "li"]]) ∧
      Yields (plan spaced "!html, !html li" ⟨2, 0⟩) (.search ⟨0, 0⟩ "#a\\,#a\\  li") ∧
      SelectorList.ofText "#a\\,#a\\  li" =
        .ok [.combined (.compound [.id "a,", .id "a "]) .descendant [.tag "li"]] := by
  have htags : ∀ node ∈ spaced.descendants (spaced.root ⟨2, 0⟩), ∀ name ∈ spaced.tagName? node,
      name ≠ "" ∧ (name.toList.all fun c => !Text.isBlank c) = true ∧
        Identifier.escape name = name := by decide +kernel
  simp only [List.all_eq_true, Bool.not_eq_true'] at htags
  have hfirst : located spaced ⟨2, 0⟩ "!html" = ⟨some ⟨1, 0⟩, ""⟩ := by decide +kernel
  have hsecond : located spaced ⟨2, 0⟩ "!html li" = ⟨some ⟨1, 0⟩, "li"⟩ := by decide +kernel
  have hplan : planned spaced ⟨2, 0⟩ (ClauseList.ofText "!html, !html li") =
      .search ⟨0, 0⟩ "#a\\,#a\\  li" := by decide +kernel
  have hrest : Token.ofText "li" = .ok [.ident "li"] := by decide +kernel
  have hall : Token.ofText "#a\\,#a\\  li" =
      .ok [.hash "a," true, .hash "a " true, .whitespace, .ident "li"] := by decide +kernel
  refine ⟨reachable_spaced, ⟨rfl, by decide +kernel, by decide +kernel, htags, by decide +kernel⟩,
    ⟨by decide +kernel, by decide +kernel, hfirst ▸ yields_locate _ _ _,
      hsecond ▸ yields_locate _ _ _, ?_⟩, hplan ▸ (asks_plan _ _ _).yields, ?_⟩
  · rw [SelectorList.ofText, hrest]
    rfl
  · rw [SelectorList.ofText, hall]
    rfl

end Dom

end DomQuery

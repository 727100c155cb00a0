import DomQuery.Dom.Query
import DomQuery.Proofs.Dom.Lookup

/-!
# What a query finds

The answer to a query whose text is read, at a document and at an element.  Whatever is found is an
element below the node that is searched (`Dom.exists_of_querySelectorAll`).
-/

namespace DomQuery.Dom

variable {dom : Dom} {node : Handle} {text : String} {selectors : SelectorList}

/-- What `:scope` stands for in a query at the document. -/
theorem queryScope_of_isDocument (hdocument : dom.isDocument node = true) :
    dom.queryScope node = .ok (dom.documentElement? node) := by
  simp [queryScope, hdocument]

theorem queryScope_of_isElement (helement : dom.isElement node = true) :
    dom.queryScope node = .ok (some node) := by
  simp [queryScope, dom.isDocument_eq_false_of_isElement helement, helement]

/-- Elements and documents can be queried. -/
theorem exists_queryScope (h : dom.isElement node = true ∨ dom.isDocument node = true) :
    ∃ scope, dom.queryScope node = .ok scope := by
  rcases h with helement | hdocument
  · exact ⟨_, queryScope_of_isElement helement⟩
  · exact ⟨_, queryScope_of_isDocument hdocument⟩

theorem querySelectorAll_of_ofText {scope : Option Handle}
    (hread : SelectorList.ofText text = .ok selectors) (hscope : dom.queryScope node = .ok scope) :
    dom.querySelectorAll node text =
      .ok ((dom.descendants node).filter (dom.matchesAny scope selectors)) := by
  simp [querySelectorAll, SelectorList.forQuery, hread, hscope, Except.mapError, bind, Except.bind,
    pure, Except.pure]

theorem querySelector_of_ofText {scope : Option Handle}
    (hread : SelectorList.ofText text = .ok selectors) (hscope : dom.queryScope node = .ok scope) :
    dom.querySelector node text =
      .ok ((dom.descendants node).find? (dom.matchesAny scope selectors)) := by
  simp [querySelector, SelectorList.forQuery, hread, hscope, Except.mapError, bind, Except.bind,
    pure, Except.pure]

theorem querySelectorAll_of_isDocument (hdocument : dom.isDocument node = true)
    (hread : SelectorList.ofText text = .ok selectors) :
    dom.querySelectorAll node text = .ok ((dom.descendants node).filter
      (dom.matchesAny (dom.documentElement? node) selectors)) :=
  querySelectorAll_of_ofText hread (queryScope_of_isDocument hdocument)

theorem querySelectorAll_of_isElement (helement : dom.isElement node = true)
    (hread : SelectorList.ofText text = .ok selectors) :
    dom.querySelectorAll node text =
      .ok ((dom.descendants node).filter (dom.matchesAny (some node) selectors)) :=
  querySelectorAll_of_ofText hread (queryScope_of_isElement helement)

/-- A query for one node finds the first of all. -/
theorem querySelector_eq (dom : Dom) (node : Handle) (text : String) :
    dom.querySelector node text = (dom.querySelectorAll node text).map List.head? := by
  simp only [querySelector, querySelectorAll, bind, Except.bind, pure, Except.pure]
  split
  · rfl
  · split
    · rfl
    · rw [Except.map, List.head?_filter]

/-! ### Testing elements -/

theorem closest_of_ofText (helement : dom.isElement node = true)
    (hread : SelectorList.ofText text = .ok selectors) :
    dom.closest node text = .ok (((node :: dom.ancestors node).takeWhile dom.isElement).find?
      (dom.matchesAny (some node) selectors)) := by
  simp [closest, SelectorList.forQuery, hread, requireElement, helement, Except.mapError, bind,
    Except.bind, pure, Except.pure]

theorem closest_of_error {cause : SelectorError} (hread : SelectorList.ofText text = .error cause) :
    dom.closest node text = .error (.badSelector text cause) := by
  simp [closest, SelectorList.forQuery, hread, Except.mapError, bind, Except.bind]

theorem elementMatches_of_ofText (helement : dom.isElement node = true)
    (hread : SelectorList.ofText text = .ok selectors) :
    dom.elementMatches node text = .ok (dom.matchesAny (some node) selectors node) := by
  simp [elementMatches, SelectorList.forQuery, hread, requireElement, helement, Except.mapError,
    bind, Except.bind, pure, Except.pure]

theorem elementMatches_of_error {cause : SelectorError}
    (hread : SelectorList.ofText text = .error cause) :
    dom.elementMatches node text = .error (.badSelector text cause) := by
  simp [elementMatches, SelectorList.forQuery, hread, Except.mapError, bind, Except.bind]

/-! ### What every answer is -/

theorem isElement_of_matchesCompound {scope : Option Handle} {simples : List SimpleSelector}
    (h : dom.matchesCompound scope simples node = true) : dom.isElement node = true := by
  rw [matchesCompound, Option.any_eq_true] at h
  obtain ⟨element, helement, -⟩ := h
  rw [isElement, helement, Option.isSome_some]

theorem isElement_of_matchesComplex {scope : Option Handle} {selector : ComplexSelector}
    (h : dom.matchesComplex scope selector node = true) : dom.isElement node = true := by
  cases selector with
  | compound simples =>
      rw [matchesComplex, ← matchesCompound] at h
      exact isElement_of_matchesCompound h
  | combined left combinator simples =>
      rw [matchesComplex, ← matchesCompound, Bool.and_eq_true] at h
      exact isElement_of_matchesCompound h.1

theorem isElement_of_matchesAny {scope : Option Handle}
    (h : dom.matchesAny scope selectors node = true) : dom.isElement node = true := by
  induction selectors with
  | nil => exact absurd h (by simp [matchesAny])
  | cons selector selectors ih =>
      rw [matchesAny, Bool.or_eq_true] at h
      rcases h with hfirst | hrest
      · exact isElement_of_matchesComplex hfirst
      · exact ih hrest

/-- An answer is made of the matching nodes below the node that is searched. -/
theorem exists_of_querySelectorAll {found : List Handle}
    (h : dom.querySelectorAll node text = .ok found) :
    ∃ scope selectors, found = (dom.descendants node).filter (dom.matchesAny scope selectors) := by
  simp only [querySelectorAll, bind, Except.bind, pure, Except.pure] at h
  split at h
  · exact absurd h (by simp)
  · split at h
    · exact absurd h (by simp)
    · exact ⟨_, _, (Except.ok.inj h).symm⟩

end DomQuery.Dom
